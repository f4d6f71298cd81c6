import Espbase.StackJson.FlagBlind
import Espbase.StackJson.FlagLights

namespace Espbase.StackJson

open Espbase.Lib StackBuffer

section blind
variable {σ : Type} [Buffer σ]

/-- `emit_json_nodes` without its fast path: the nodes are reset and `emit_level` is run from the
root. -/
def emitFromRoot (nodes : List (NodeBase σ)) (st : Emission σ) : Option (Emission σ × Nat) :=
  written (Buffer.length st.buf)
    (emitBraced (emitLevel nodes (maxDepth nodes + 1) []) (resetAll nodes st))

theorem runItems_blind {ids : List Nat} (its : List (Item (NodeBase σ)))
    (hn : ∀ n ∈ itemValues its, PutBlind ids n.emitValue) : Blind ids (runItems its) := by
  induction its with
  | nil => exact blind_stop true
  | cons it its ih =>
    have hsplit : itemValues (it :: its) = itemValues [it] ++ itemValues its :=
      itemValues_append [it] its
    rw [hsplit] at hn
    have hone : Blind ids fun st => runItem st it := by
      cases it with
      | punct c => exact write_blind [c]
      | key k => exact writeEscaped_blind k
      | value n => exact callEmitValue_blind n (hn n (by simp [itemValues]))
    exact hone.andThen (ih fun n hm => hn n (List.mem_append_right _ hm))

theorem runItems_moves {R : Nat → Bool → Bool → Prop} (hR : FlagRule R)
    (its : List (Item (NodeBase σ))) (hn : ∀ n ∈ itemValues its, PutMoves R n.emitValue) :
    Moves R (runItems its) := by
  induction its with
  | nil => exact hR.stop true
  | cons it its ih =>
    have hsplit : itemValues (it :: its) = itemValues [it] ++ itemValues its :=
      itemValues_append [it] its
    rw [hsplit] at hn
    have hone : Moves R fun st => runItem st it := by
      cases it with
      | punct c => exact write_moves hR [c]
      | key k => exact writeEscaped_moves hR k
      | value n => exact callEmitValue_moves n (hn n (by simp [itemValues]))
    exact hR.andThen hone (ih fun n hm => hn n (List.mem_append_right _ hm))

/-- The items of the member of a depth-1 node. -/
def leafItems {α : Type} (first : Bool) (path : PathBase) (a : α) : List (Item α) :=
  sepItems first ++ [.key (path.headD []), .punct (ch ':'), .value a]

@[simp] theorem itemValues_leafItems {α : Type} (first : Bool) (path : PathBase) (a : α) :
    itemValues (leafItems first path a) = [a] := by
  simp [leafItems, itemValues_append, itemValues]

theorem flatLoop_cons (n : NodeBase σ) (nodes : List (NodeBase σ)) (first : Bool) (st : Emission σ)
    (hflat : n.path.length = 1) (ho : n.omitted = false) :
    flatLoop (n :: nodes) first st =
      andThen (runItems (leafItems first n.path n) st) (flatLoop nodes false) := by
  obtain ⟨k, hk⟩ := List.length_eq_one_iff.mp hflat
  rw [flatLoop, if_neg (by simp [ho]), leafItems, runItems_append, andThen_assoc, separator_eq]
  apply andThen_congr _ _ _
  intro st1 _
  simp only [PathBase.getElement, hk, List.getElem?_cons_zero, Option.bind_eq_bind,
    Option.bind_some, List.headD_cons, runItems, runItem, andThen_assoc]
  refine andThen_congr _ _ _ fun st2 _ => andThen_congr _ _ _ ?_
  intro st3 _
  rcases callEmitValue n st3 with _ | ⟨st4, _ | _⟩ <;> rfl

theorem emitLoop_cons (recurse : PathBase → Emission σ → Option (Emission σ × Bool))
    (n : NodeBase σ) (nodes : List (NodeBase σ)) (first : Bool) (st : Emission σ)
    (hflat : n.path.length = 1) (hl : Live st n) :
    emitLoop recurse [] (n :: nodes) first st =
      andThen (runItems (leafItems first n.path n) st) (emitLoop recurse [] nodes false) := by
  obtain ⟨k, hk⟩ := List.length_eq_one_iff.mp hflat
  have hkey : n.path.getElement 0 = some k := by simp [PathBase.getElement, hk]
  rw [emitLoop, if_neg (by simp [hl.1, hl.2]), if_neg (by simp [PathBase.depth])]
  rw [show PathBase.depth [] = 0 from rfl, emitMember_leaf recurse 0 n k first st hkey hflat, leafItems,
    hk]
  rfl

theorem flatLoop_omitted (n : NodeBase σ) (nodes : List (NodeBase σ)) (first : Bool)
    (st : Emission σ) (ho : n.omitted = true) :
    flatLoop (n :: nodes) first st = flatLoop nodes first st := by
  rw [flatLoop, if_pos ho]

theorem emitLoop_skip (recurse : PathBase → Emission σ → Option (Emission σ × Bool))
    (n : NodeBase σ) (nodes : List (NodeBase σ)) (first : Bool) (st : Emission σ)
    (hl : ¬ Live st n) :
    emitLoop recurse [] (n :: nodes) first st = emitLoop recurse [] nodes first st := by
  rw [emitLoop, if_pos]
  by_contra hc
  exact hl (by simpa [Live] using hc)

theorem valueNodes_cons (p : NodeInfo × Value) (nodes : List (NodeInfo × Value)) :
    valueNodes (σ := σ) (p :: nodes) = valueNode p.1 p.2 :: valueNodes nodes := rfl

theorem valueNode_live (st : Emission σ) (n : NodeInfo) (v : Value) :
    Live st (valueNode n v) ↔ st.emitted n.id = false ∧ n.omitted = false := Iff.rfl

theorem valueNode_path (n : NodeInfo) (v : Value) : (valueNode (σ := σ) n v).path = n.path := rfl

/-- As long as no later node is flagged, the fast path does what `emit_level` does. -/
theorem flatLoop_alike (recurse : PathBase → Emission σ → Option (Emission σ × Bool))
    (nodes : List (NodeInfo × Value)) (hflat : ∀ p ∈ nodes, p.1.path.length = 1)
    (hpw : nodes.Pairwise fun p q =>
      p.1.omitted = false → q.1.omitted = false → q.1.id ∉ p.1.id :: p.2.marks)
    (first : Bool) (a b : Emission σ) (hab : a.buf = b.buf)
    (hlive : ∀ p ∈ nodes, p.1.omitted = false → b.emitted p.1.id = false) :
    Alike [] (flatLoop (valueNodes nodes) first a)
      (emitLoop recurse [] (valueNodes nodes) first b) := by
  have hagree : Agree [] a b := ⟨hab, by simp⟩
  induction nodes generalizing first a b with
  | nil => exact Option.Rel.some ⟨hagree, rfl⟩
  | cons p nodes ih =>
    have hpair := List.pairwise_cons.mp hpw
    have ih (first a b hab hlive) := ih (fun q hq => hflat q (by simp [hq])) hpair.2 first a b hab hlive
    rw [valueNodes_cons]
    cases ho : p.1.omitted with
    | true =>
      rw [flatLoop_omitted _ _ first a ho, emitLoop_skip _ _ _ first b (by simp [valueNode_live, ho])]
      exact ih first a b hab (fun q hq => hlive q (by simp [hq])) hagree
    | false =>
      have hpath : (valueNode (σ := σ) p.1 p.2).path.length = 1 := hflat p (by simp)
      have hl : Live b (valueNode (σ := σ) p.1 p.2) := ⟨hlive p (by simp) ho, ho⟩
      rw [flatLoop_cons _ _ first a hpath ho, emitLoop_cons recurse _ _ first b hpath hl]
      have hblind : Blind [] (runItems (leafItems first p.1.path (valueNode (σ := σ) p.1 p.2))) := by
        apply runItems_blind
        intro n hn
        rw [itemValues_leafItems, List.mem_singleton] at hn
        rw [hn]
        exact valueNodes_blind [p] _ (by simp [valueNodes_eq]) []
      have hR : FlagRule fun i a b => i ∉ p.1.id :: p.2.marks → a = false → b = false :=
        ⟨fun _ _ _ h => h, fun _ _ _ _ hab hbc hi ha => hbc hi (hab hi ha)⟩
      have hmoves : Moves (fun i a b => i ∉ p.1.id :: p.2.marks → a = false → b = false)
          (runItems (leafItems first p.1.path (valueNode (σ := σ) p.1 p.2))) := by
        apply runItems_moves hR
        intro n hn
        rw [itemValues_leafItems, List.mem_singleton] at hn
        rw [hn]
        exact (valueNodes_moves hR [p] (fun i hi _ hn => absurd (by simpa [nodeMarks, ho] using hi) hn)
          (fun _ _ _ _ _ => rfl)).2 _ (by simp [valueNodes_eq]) ho
      apply alike_andThen (hblind a b hagree)
      intro s t _ ht hst
      apply ih false s t hst.1 _ hst
      intro q hq hqo
      exact hmoves b t true ht q.1.id (hpair.1 q hq ho hqo) (hlive q (by simp [hq]) hqo)

theorem valueNodes_flat (nodes : List (NodeInfo × Value))
    (hflat : ∀ p ∈ nodes, p.1.path.length = 1) :
    ¬ ((valueNodes (σ := σ) nodes).any fun n => n.path.depth > 1) = true := by
  intro h
  obtain ⟨n, hn, hd⟩ := List.any_eq_true.mp h
  rw [valueNodes_eq] at hn
  obtain ⟨p, hp, rfl⟩ := List.mem_map.mp hn
  have hone : (valueNode (σ := σ) p.1 p.2).path.depth = 1 := hflat p hp
  rw [hone] at hd
  exact absurd hd (by decide)

/-- Without repeated nodes the fast path is the general one, for every buffer. -/
theorem emitDocument_alike (nodes : List (NodeInfo × Value))
    (hflat : ∀ p ∈ nodes, p.1.path.length = 1) (hne : nodes ≠ [])
    (hpw : nodes.Pairwise fun p q =>
      p.1.omitted = false → q.1.omitted = false → q.1.id ∉ p.1.id :: p.2.marks)
    (st : Emission σ) :
    Alike [] (emitDocument nodes st) (emitFromRoot (valueNodes nodes) st) := by
  have hnodes : ¬ (valueNodes (σ := σ) nodes).isEmpty = true := by simpa [valueNodes_eq] using hne
  have hnest := valueNodes_flat (σ := σ) nodes hflat
  unfold emitDocument emitJsonNodes emitFromRoot
  simp only [if_neg hnodes, if_neg hnest]
  apply written_alike
  have hstart : Agree [] st (resetAll (valueNodes nodes) st) :=
    ⟨(resetAll_buf _ st).symm, by simp⟩
  apply alike_andThen (write_blind [ch '{'] _ _ hstart)
  intro s t _ ht hst
  refine alike_andThen ?_ fun s t _ _ hst => write_blind [ch '}'] _ _ hst
  rw [emitLevel]
  apply flatLoop_alike _ nodes hflat hpw true s t hst.1
  intro p hp _
  rw [write_emitted _ _ _ _ ht, resetAll_emitted, if_pos]
  rw [valueNodes_eq, List.map_map]
  exact List.mem_map.mpr ⟨p, hp, rfl⟩

end blind

theorem validNodes_mem (nodes : List (NodeInfo × Value)) (h : ValidNodes nodes)
    (p : NodeInfo × Value) (hp : p ∈ nodes) : p.2.Valid := by
  induction nodes with
  | nil => cases hp
  | cons q nodes ih =>
    rcases List.mem_cons.mp hp with rfl | hp
    · exact h.1
    · exact ih h.2 hp

section room
variable {maxSize : Nat}

/-- The writes of the members of depth-1 nodes. -/
def flatChunks : Bool → List (NodeInfo × Value) → List Bytes
  | _, [] => []
  | first, p :: nodes =>
    if p.1.omitted then flatChunks first nodes
    else itemChunks (leafItems first p.1.path p.2.chunks) ++ flatChunks false nodes

theorem flatChunks_omitted (first : Bool) (p : NodeInfo × Value) (nodes : List (NodeInfo × Value))
    (ho : p.1.omitted = true) : flatChunks first (p :: nodes) = flatChunks first nodes := if_pos ho

theorem flatChunks_shown (first : Bool) (p : NodeInfo × Value) (nodes : List (NodeInfo × Value))
    (ho : p.1.omitted = false) :
    flatChunks first (p :: nodes) =
      itemChunks (leafItems first p.1.path p.2.chunks) ++ flatChunks false nodes :=
  if_neg (by simp [ho])

theorem map_leafItems {α β : Type} (f : α → β) (first : Bool) (path : PathBase) (a : α) :
    (leafItems first path a).map (Item.map f) = leafItems first path (f a) := by
  cases first <;> rfl

theorem leafItems_pos (first : Bool) (path : PathBase) (ws : List Bytes) :
    0 < (itemChunks (leafItems first path ws)).flatten.length := by
  cases first <;> simp [leafItems, sepItems, itemChunks, Item.chunks]

/-- A first member saves its comma. -/
theorem flatChunks_first (first : Bool) (nodes : List (NodeInfo × Value)) :
    (flatChunks first nodes).flatten.length ≤ (flatChunks false nodes).flatten.length := by
  induction nodes with
  | nil => exact Nat.le_refl _
  | cons p nodes ih =>
    rw [flatChunks, flatChunks]
    split_ifs
    · exact ih
    · cases first
      · exact Nat.le_refl _
      · simp [leafItems, sepItems, itemChunks, Item.chunks]

/-- One member with room for it is written, and flags its node and those inside its value. -/
theorem leaf_room (p : NodeInfo × Value) (hv : p.2.Valid) (first : Bool) (st : StackEmission maxSize)
    (hroom : HasRoom st (itemChunks (leafItems first p.1.path p.2.chunks))) :
    ∃ st1, runItems (leafItems first p.1.path (valueNode p.1 p.2)) st = some (st1, true) ∧
      Appended st.buf (itemChunks (leafItems first p.1.path p.2.chunks)).flatten st1.buf ∧
      ∀ id ∉ p.2.omits, id ∈ p.1.id :: p.2.marks ∨ st.emitted id = true → st1.emitted id = true := by
  let x : NodeBase (StackBuffer maxSize) × List Bytes := (valueNode p.1 p.2, p.2.chunks)
  have hputs : ∀ y ∈ itemValues (leafItems first p.1.path x),
      Puts (p.2.plain = true) (p.1.id :: p.2.ids) y.2 y.1.emitValue := by
    intro y hy
    rw [itemValues_leafItems, List.mem_singleton] at hy
    rw [hy]
    exact valueNode_puts p.1 p.2 (by simp)
      ((writeJsonValue_puts p.2 hv).mono (fun h => h) (List.subset_cons_self _ _))
  have hemits := runItems_emits (leafItems first p.1.path x) hputs
  rw [map_leafItems, map_leafItems] at hemits
  obtain ⟨st1, ok, h1, hem⟩ := hemits st hroom.within
  obtain ⟨rfl, ha⟩ := hem.fits hroom.good hroom.fits
  refine ⟨st1, h1, ha, ?_⟩
  intro id hid hlit
  refine runItems_lights (leafItems first p.1.path x) (fun _ => id = p.1.id ∨ id ∈ p.2.marks) hputs
    ?_ st st1 true (by rw [map_leafItems]; exact hroom) (by rw [map_leafItems]; exact h1) ?_
  · intro y hy
    rw [itemValues_leafItems, List.mem_singleton] at hy
    rw [hy]
    exact valueNode_lights p.1 p.2 (writeJsonValue_lights id p.2 hv hid)
  · rw [List.mem_cons] at hlit
    exact hlit.imp_left fun h => ⟨x, by simp, h⟩

/-- The fast path writes all members. -/
theorem flatLoop_room (nodes : List (NodeInfo × Value)) (hflat : ∀ p ∈ nodes, p.1.path.length = 1)
    (hvalid : ∀ p ∈ nodes, p.2.Valid) (first : Bool) (st : StackEmission maxSize)
    (hroom : HasRoom st (flatChunks first nodes)) :
    ∃ st', flatLoop (valueNodes nodes) first st = some (st', true) ∧
      Appended st.buf (flatChunks first nodes).flatten st'.buf := by
  induction nodes generalizing first st with
  | nil => exact ⟨st, rfl, Appended.nil _ hroom.within⟩
  | cons p nodes ih =>
    have ih (first st hroom) := ih (fun q hq => hflat q (by simp [hq]))
      (fun q hq => hvalid q (by simp [hq])) first st hroom
    rw [valueNodes_cons]
    cases ho : p.1.omitted with
    | true =>
      rw [flatChunks_omitted first p nodes ho] at hroom ⊢
      rw [flatLoop_omitted _ _ first st ho]
      exact ih first st hroom
    | false =>
      rw [flatChunks_shown first p nodes ho] at hroom ⊢
      obtain ⟨st1, h1, ha, -⟩ := leaf_room p (hvalid p (by simp)) first st hroom.left
      obtain ⟨st2, h2, ha2⟩ := ih false st1 (hroom.next ha)
      refine ⟨st2, ?_, by rw [List.flatten_append]; exact ha.trans ha2⟩
      rw [flatLoop_cons _ _ first st (hflat p (by simp)) ho, valueNode_path, h1]
      exact h2

/-- A non-omitted node that is flagged already or emitted by an earlier one. -/
def Repeats (st : StackEmission maxSize) (nodes : List (NodeInfo × Value)) : Prop :=
  ∃ q ∈ nodes, q.1.omitted = false ∧ (st.emitted q.1.id = true ∨
    ∃ p, List.Sublist [p, q] nodes ∧ p.1.omitted = false ∧ q.1.id ∈ p.1.id :: p.2.marks)

theorem Repeats.of_omitted {st : StackEmission maxSize} {x : NodeInfo × Value}
    {nodes : List (NodeInfo × Value)} (h : Repeats st (x :: nodes)) (ho : x.1.omitted = true) :
    Repeats st nodes := by
  obtain ⟨q, hq, hqo, hcase⟩ := h
  have hin : q ∈ nodes := (List.mem_cons.mp hq).resolve_left fun he => by
    rw [he, ho] at hqo
    cases hqo
  refine ⟨q, hin, hqo, hcase.imp_right ?_⟩
  intro hp
  obtain ⟨p, hsub, hpo, hmark⟩ := hp
  refine ⟨p, ?_, hpo, hmark⟩
  cases hsub with
  | cons _ h => exact h
  | cons_cons _ _ =>
    rw [ho] at hpo
    cases hpo

/-- The repetition is still ahead after a node was emitted. -/
theorem Repeats.of_emitted {st st1 : StackEmission maxSize} {x : NodeInfo × Value}
    {nodes : List (NodeInfo × Value)} (h : Repeats st (x :: nodes))
    (hflag : st.emitted x.1.id = false)
    (hlit : ∀ q ∈ nodes, q.1.omitted = false → q.1.id ∈ x.1.id :: x.2.marks ∨
      st.emitted q.1.id = true → st1.emitted q.1.id = true) : Repeats st1 nodes := by
  obtain ⟨q, hq, hqo, hset | ⟨p, hsub, hpo, hmark⟩⟩ := h
  · have hin : q ∈ nodes := (List.mem_cons.mp hq).resolve_left fun he => by
      rw [he, hflag] at hset
      cases hset
    exact ⟨q, hin, hqo, .inl (hlit q hin hqo (.inr hset))⟩
  · cases hsub with
    | cons _ h => exact ⟨q, h.subset (by simp), hqo, .inr ⟨p, h, hpo, hmark⟩⟩
    | cons_cons _ h =>
      have hin : q ∈ nodes := h.subset (by simp)
      exact ⟨q, hin, hqo, .inl (hlit q hin hqo (.inl hmark))⟩

/-- The general path writes no more than the fast path, and less when a node is repeated. -/
theorem emitLoop_room (recurse : PathBase → StackEmission maxSize →
      Option (StackEmission maxSize × Bool)) (nodes : List (NodeInfo × Value))
    (hflat : ∀ p ∈ nodes, p.1.path.length = 1) (hvalid : ∀ p ∈ nodes, p.2.Valid)
    (hobj : ∀ p ∈ nodes, ∀ q ∈ nodes, p.1.omitted = false → q.1.omitted = false →
      q.1.id ∉ p.2.omits) (first : Bool) (st : StackEmission maxSize)
    (hroom : HasRoom st (flatChunks first nodes)) :
    ∃ st' w, emitLoop recurse [] (valueNodes nodes) first st = some (st', true) ∧
      Appended st.buf w st'.buf ∧ w.length ≤ (flatChunks first nodes).flatten.length ∧
      (Repeats st nodes → w.length < (flatChunks first nodes).flatten.length) := by
  induction nodes generalizing first st with
  | nil =>
    refine ⟨st, [], rfl, Appended.nil _ hroom.within, Nat.zero_le _, ?_⟩
    intro h
    obtain ⟨q, hq, -⟩ := h
    cases hq
  | cons x nodes ih =>
    have ih (first st hroom) := ih (fun q hq => hflat q (by simp [hq]))
      (fun q hq => hvalid q (by simp [hq]))
      (fun p hp q hq => hobj p (by simp [hp]) q (by simp [hq])) first st hroom
    rw [valueNodes_cons]
    cases ho : x.1.omitted with
    | true =>
      rw [flatChunks_omitted first x nodes ho] at hroom ⊢
      rw [emitLoop_skip _ _ _ first st (by simp [valueNode_live, ho])]
      obtain ⟨st', w, h, ha, hle, hlt⟩ := ih first st hroom
      exact ⟨st', w, h, ha, hle, fun hrep => hlt (hrep.of_omitted ho)⟩
    | false =>
      rw [flatChunks_shown first x nodes ho] at hroom ⊢
      have hpos := leafItems_pos first x.1.path x.2.chunks
      have hfirst := flatChunks_first first nodes
      rw [List.flatten_append, List.length_append]
      cases hflag : st.emitted x.1.id with
      | true =>
        -- the general path skips the node
        rw [emitLoop_skip _ _ _ first st (by simp [valueNode_live, hflag])]
        have hroom' : HasRoom st (flatChunks first nodes) := by
          refine ⟨hroom.within, hroom.good, ?_⟩
          have := hroom.fits
          rw [List.flatten_append, List.length_append] at this
          omega
        obtain ⟨st', w, h, ha, hle, -⟩ := ih first st hroom'
        exact ⟨st', w, h, ha, by omega, fun _ => by omega⟩
      | false =>
        obtain ⟨st1, h1, ha, hlit⟩ := leaf_room x (hvalid x (by simp)) first st hroom.left
        obtain ⟨st2, w, h2, ha2, hle, hlt⟩ := ih false st1 (hroom.next ha)
        refine ⟨st2, _, ?_, ha.trans ha2, ?_, ?_⟩
        · rw [emitLoop_cons recurse _ _ first st (hflat x (by simp)) ⟨hflag, ho⟩, valueNode_path, h1]
          exact h2
        · rw [List.length_append]
          omega
        · intro hrep
          rw [List.length_append]
          have := hlt (hrep.of_emitted hflag fun q hq hqo h =>
            hlit q.1.id (hobj x (by simp) q (by simp [hq]) ho hqo) h)
          omega

/-- The braces around members that are written within their room. -/
theorem emitBraced_room (inner : StackEmission maxSize → Option (StackEmission maxSize × Bool))
    (st : StackEmission maxSize) (ws : List Bytes) (hw : st.buf.Within) (hg : st.buf.bad = false)
    (hfits : st.buf.head + ws.flatten.length + 2 ≤ maxSize) :
    ∃ s : StackEmission maxSize, s.emitted = st.emitted ∧ HasRoom s ws ∧
      ∀ s' w, inner s = some (s', true) → Appended s.buf w s'.buf →
        w.length ≤ ws.flatten.length →
        ∃ s'', emitBraced inner st = some (s'', true) ∧
          s''.buf.head = st.buf.head + w.length + 2 := by
  obtain ⟨b1, h1, ha1⟩ := write_fits st.buf [ch '{'] (by simp; omega)
  have hh1 := ha1.head hw
  have hl1 : [ch '{'].length = 1 := rfl
  refine ⟨{ st with buf := b1 }, rfl, ⟨ha1.within, ha1.bad.trans hg, ?_⟩, ?_⟩
  · change b1.head + _ ≤ maxSize
    omega
  · intro s' w hinner ha hle
    have hh2 : s'.buf.head = b1.head + w.length := ha.head ha1.within
    obtain ⟨b3, h3, ha3⟩ := write_fits s'.buf [ch '}'] (by simp; omega)
    have hh3 := ha3.head ha.within
    have hl3 : [ch '}'].length = 1 := rfl
    refine ⟨{ s' with buf := b3 }, ?_, ?_⟩
    · simp [emitBraced, andThen, Emission.write, h1, hinner, h3]
    · change b3.head = _
      omega

/-- The fast path writes the same bytes and returns the same value as the general one, into every
stack buffer, whatever it holds and whatever flags earlier emissions have left. -/
def FlatAgrees (nodes : List (NodeInfo × Value)) : Prop :=
  ∀ (maxSize : Nat) (st : StackEmission maxSize), st.buf.Within →
    (emitDocument nodes st).map (fun r => (r.1.buf, r.2)) =
      (emitFromRoot (valueNodes nodes) st).map fun r => (r.1.buf, r.2)

theorem emitDocument_flat (nodes : List (NodeInfo × Value)) (hne : nodes ≠ [])
    (hflat : ∀ p ∈ nodes, p.1.path.length = 1) (st : StackEmission maxSize) :
    emitDocument nodes st = written st.buf.head (emitBraced (flatLoop (valueNodes nodes) true) st) := by
  have hnodes : ¬ (valueNodes (σ := StackBuffer maxSize) nodes).isEmpty = true := by
    simpa [valueNodes_eq] using hne
  have hnest := valueNodes_flat (σ := StackBuffer maxSize) nodes hflat
  unfold emitDocument emitJsonNodes
  simp only [if_neg hnodes, if_neg hnest]
  rfl

/-- With room for all members, a repeated node makes the general path return less. -/
theorem repeated_differ (nodes : List (NodeInfo × Value)) (hflat : ∀ p ∈ nodes, p.1.path.length = 1)
    (hvalid : ValidNodes nodes) (hobj : ∀ id ∈ nodeMarks nodes, id ∉ nodeOmits nodes)
    (p q : NodeInfo × Value) (hpq : List.Sublist [p, q] nodes) (hp : p.1.omitted = false)
    (hq : q.1.omitted = false) (hmark : q.1.id ∈ p.1.id :: p.2.marks) : ¬ FlatAgrees nodes := by
  intro hagree
  have hne : nodes ≠ [] := fun he => by
    rw [he] at hpq
    cases hpq
  let maxSize := (flatChunks true nodes).flatten.length + 2
  let st : StackEmission maxSize := ⟨StackBuffer.empty maxSize, fun _ => false⟩
  have hw : st.buf.Within := Nat.zero_le _
  have hfits : st.buf.head + (flatChunks true nodes).flatten.length + 2 ≤ maxSize :=
    Nat.le_of_eq (by simp [st, maxSize, StackBuffer.empty])
  have hvalues : ∀ p ∈ nodes, p.2.Valid := validNodes_mem nodes hvalid
  -- the fast path
  obtain ⟨s, -, hroom, hdone⟩ :=
    emitBraced_room (flatLoop (valueNodes nodes) true) st (flatChunks true nodes) hw rfl hfits
  obtain ⟨s', hs', ha⟩ := flatLoop_room nodes hflat hvalues true s hroom
  obtain ⟨fast, hfast, hfastHead⟩ := hdone s' _ hs' ha (Nat.le_refl _)
  -- the general path
  let general : List (NodeBase (StackBuffer maxSize)) := valueNodes nodes
  have hbuf := resetAll_buf general st
  obtain ⟨t, ht, hroom, hdone⟩ :=
    emitBraced_room (emitLevel general (maxDepth general + 1) []) (resetAll general st)
      (flatChunks true nodes) (by rw [hbuf]; exact hw) (by rw [hbuf]; rfl) (by rw [hbuf]; exact hfits)
  have hmem : p ∈ nodes ∧ q ∈ nodes := ⟨hpq.subset (by simp), hpq.subset (by simp)⟩
  obtain ⟨t', w, ht', ha, hle, hlt⟩ := emitLoop_room
    (emitLevel general (maxDepth general)) nodes
    hflat hvalues (fun x hx y hy hxo hyo =>
      (not_mem_nodeOmits nodes _ (hobj _ ((mem_nodeMarks nodes _).mpr ⟨y, hy, hyo, .inl rfl⟩)) x
        hx).2 hxo) true t hroom
  have hlt := hlt ⟨q, hmem.2, hq, .inr ⟨p, hpq, hp, hmark⟩⟩
  obtain ⟨slow, hslow, hslowHead⟩ := hdone t' w ht' ha hle
  have h := hagree maxSize st hw
  rw [emitDocument_flat nodes hne hflat st, hfast] at h
  unfold emitFromRoot at h
  rw [hslow] at h
  have hcount := congrArg (fun r => r.map Prod.snd) h
  simp only [written, Option.bind_eq_bind, Option.bind_some, Option.map_some, if_true,
    Option.some.injEq] at hcount
  change fast.buf.head - 0 = slow.buf.head - 0 at hcount
  rw [hbuf] at hslowHead
  omega

end room

/-- On depth-1 nodes the fast path agrees with the general traversal exactly when there are nodes and
no non-omitted node is emitted by an earlier one already: it is neither listed before nor part of the
value of one listed before. An object is omitted wherever it occurs or nowhere. -/
theorem flatAgrees_iff (nodes : List (NodeInfo × Value)) (hflat : ∀ p ∈ nodes, p.1.path.length = 1)
    (hvalid : ValidNodes nodes) (hobj : ∀ id ∈ nodeMarks nodes, id ∉ nodeOmits nodes) :
    FlatAgrees nodes ↔ nodes ≠ [] ∧ nodes.Pairwise fun p q =>
      p.1.omitted = false → q.1.omitted = false → q.1.id ∉ p.1.id :: p.2.marks := by
  constructor
  · intro hagree
    refine ⟨?_, List.pairwise_iff_forall_sublist.mpr fun {p q} hpq hp hq hmark => ?_⟩
    · intro he
      -- one byte of room: nothing against an opening brace
      subst he
      have h := hagree 1 ⟨StackBuffer.empty 1, fun _ => false⟩ (Nat.zero_le _)
      have hhead := congrArg (fun r => r.map fun r => r.1.head) h
      exact absurd hhead (by decide)
    · exact repeated_differ nodes hflat hvalid hobj p q hpq hp hq hmark hagree
  · intro hcond maxSize st _
    obtain ⟨hne, hpw⟩ := hcond
    exact (emitDocument_alike nodes hflat hne hpw st).observe

/-- Two members, one of them omitted, and a document whose own member is listed before it. -/
def flatMembers : List (NodeInfo × Value) :=
  [(⟨0, false, [bytes "x"]⟩, .bool true), (⟨1, true, [bytes "y"]⟩, .null),
   (⟨1, true, [bytes "y"]⟩, .null),
   (⟨2, false, [bytes "all"]⟩, .doc [(⟨0, false, [bytes "x"]⟩, .bool true)])]

theorem flatAgrees_iff_flatMembers : FlatAgrees flatMembers := by
  refine (flatAgrees_iff flatMembers (by decide) ?_ (by decide)).mpr ⟨by decide, by decide⟩
  exact ⟨trivial, trivial, trivial, ⟨⟨by decide, by decide, by decide, by decide⟩, trivial, trivial⟩,
    trivial⟩

/-- One document added twice. -/
def addedTwice : List (NodeInfo × Value) :=
  [(⟨0, false, [bytes "x"]⟩, .bool true), (⟨0, false, [bytes "x"]⟩, .bool true)]

/-- The fast path writes the member twice, the general one once. -/
theorem emitDocument_addedTwice :
    (emitDocument addedTwice ⟨StackBuffer.empty 64, fun _ => false⟩).map
        (fun r => (r.1.buf.view, r.2)) = some (bytes "\x7b\"x\":true,\"x\":true\x7d", 19) ∧
      (emitFromRoot (valueNodes addedTwice)
          (⟨StackBuffer.empty 64, fun _ => false⟩ : StackEmission 64)).map
        (fun r => (r.1.buf.view, r.2)) = some (bytes "\x7b\"x\":true\x7d", 10) := by
  decide +kernel

end Espbase.StackJson
