import Espbase.StackJson.Items

namespace Espbase.StackJson

open Espbase.Lib

variable {σ : Type}

/-- The nodes still to be emitted. -/
def Live (st : Emission σ) (n : NodeBase σ) : Prop := st.emitted n.id = false ∧ n.omitted = false

instance (st : Emission σ) (n : NodeBase σ) : Decidable (Live st n) :=
  inferInstanceAs (Decidable (_ ∧ _))

/-- The live nodes below a path, with the rest of their paths. -/
def entries (st : Emission σ) (current : PathBase) (nodes : List (NodeBase σ)) :
    List (List Bytes × NodeBase σ) :=
  (nodes.filter fun n => Live st n ∧ current <+: n.path).map fun n =>
    (n.path.drop current.length, n)

/-- The lists of nodes on which the emitter is defined: the objects are distinct, paths are not
empty, no non-omitted path is a proper prefix of the path of an earlier non-omitted node, and
emitting a node concerns its own flag only. -/
structure Emittable (nodes : List (NodeBase σ)) : Prop where
  flags : FlagFrame nodes
  distinct : nodes.Nodup
  paths : ∀ n ∈ nodes, n.path ≠ []
  order : nodes.Pairwise fun m n =>
    m.omitted = false → n.omitted = false → n.path <+: m.path → n.path = m.path

/-- Every live node below `current` is deeper than `current`, by at most `fuel`. -/
def Reaches (nodes : List (NodeBase σ)) (fuel : Nat) (current : PathBase) (st : Emission σ) : Prop :=
  ∀ n ∈ nodes, Live st n → current <+: n.path →
    current.length < n.path.length ∧ n.path.length ≤ current.length + fuel

theorem entries_cons_of_skip (st : Emission σ) (current : PathBase) (n : NodeBase σ)
    (nodes : List (NodeBase σ)) (h : ¬ (Live st n ∧ current <+: n.path)) :
    entries st current (n :: nodes) = entries st current nodes := by
  simp [entries, h]

theorem entries_cons_of_live (st : Emission σ) (current : PathBase) (n : NodeBase σ)
    (nodes : List (NodeBase σ)) (h : Live st n ∧ current <+: n.path) :
    entries st current (n :: nodes) =
      (n.path.drop current.length, n) :: entries st current nodes := by
  simp [entries, h]

theorem entries_append (st : Emission σ) (current : PathBase) (as bs : List (NodeBase σ)) :
    entries st current (as ++ bs) = entries st current as ++ entries st current bs := by
  simp [entries]

theorem entries_eq_nil (st : Emission σ) (current : PathBase) (nodes : List (NodeBase σ))
    (h : ∀ n ∈ nodes, current <+: n.path → ¬ Live st n) : entries st current nodes = [] := by
  simp only [entries, List.map_eq_nil_iff, List.filter_eq_nil_iff, decide_eq_true_eq, not_and]
  exact fun n hn hl hp => h n hn hp hl

theorem entries_congr (st st' : Emission σ) (current : PathBase) (nodes : List (NodeBase σ))
    (h : ∀ n ∈ nodes, current <+: n.path → (Live st' n ↔ Live st n)) :
    entries st' current nodes = entries st current nodes := by
  have : (nodes.filter fun n => Live st' n ∧ current <+: n.path) =
      nodes.filter fun n => Live st n ∧ current <+: n.path := by
    apply List.filter_congr
    intro n hn
    have hl := h n hn
    simp only [decide_eq_decide]
    exact and_congr_left fun hp => hl hp
  simp only [entries, this]

theorem mem_entries (st : Emission σ) (current : PathBase) (nodes : List (NodeBase σ))
    (e : List Bytes × NodeBase σ) (h : e ∈ entries st current nodes) :
    e.2 ∈ nodes ∧ Live st e.2 ∧ e.2.path = current ++ e.1 := by
  simp only [entries, List.mem_map, List.mem_filter, decide_eq_true_eq] at h
  obtain ⟨n, ⟨hn, hl, rest, hp⟩, rfl⟩ := h
  exact ⟨hn, hl, by simp [← hp]⟩

/-- Going one level down keeps the entries that pass through the key. -/
theorem entries_under (st : Emission σ) (current : PathBase) (k : Bytes)
    (nodes : List (NodeBase σ))
    (h : ∀ n ∈ nodes, Live st n → n.path ≠ current ++ [k]) :
    entries st (current ++ [k]) nodes = KeyTree.under k (entries st current nodes) := by
  induction nodes with
  | nil => rfl
  | cons n nodes ih =>
    have ih := ih fun m hm => h m (by simp [hm])
    by_cases hin : Live st n ∧ current <+: n.path
    · obtain ⟨hl, rest, hp⟩ := hin
      have hdrop : n.path.drop current.length = rest := by simp [← hp]
      rw [entries_cons_of_live st current n nodes ⟨hl, rest, hp⟩, hdrop]
      have hne := h n (by simp) hl
      rcases rest with _ | ⟨k1, _ | ⟨k2, rest⟩⟩
      · rw [entries_cons_of_skip, ih]
        · simp [KeyTree.under, KeyTree.through]
        · rintro ⟨-, t, ht⟩
          have := congrArg List.length (ht.trans hp.symm)
          simp at this
      · have hk : k1 ≠ k := fun hk => hne (by rw [← hp, hk])
        rw [entries_cons_of_skip, ih]
        · simp [KeyTree.under, KeyTree.through]
        · rintro ⟨-, t, ht⟩
          rw [← hp, List.append_assoc, List.append_cancel_left_eq] at ht
          exact hk (List.cons.inj ht).1.symm
      · by_cases hk : k1 = k
        · subst hk
          have hp' : (current ++ [k1]) ++ (k2 :: rest) = n.path := by rw [← hp]; simp
          rw [entries_cons_of_live st _ n nodes ⟨hl, _, hp'⟩, ih]
          simp [KeyTree.under, KeyTree.through, ← hp']
        · rw [entries_cons_of_skip, ih]
          · simp [KeyTree.under, KeyTree.through, hk]
          · rintro ⟨-, t, ht⟩
            rw [← hp, List.append_assoc, List.append_cancel_left_eq] at ht
            exact hk (List.cons.inj ht).1.symm
    · rw [entries_cons_of_skip st current n nodes hin, entries_cons_of_skip, ih]
      rintro ⟨hl, hp⟩
      exact hin ⟨hl, (List.prefix_append current [k]).trans hp⟩

/-- Emitting the nodes below a key leaves the entries that do not pass through it. -/
theorem entries_others (st st' : Emission σ) (current : PathBase) (k : Bytes)
    (nodes : List (NodeBase σ))
    (h : ∀ n ∈ nodes, current <+: n.path →
      (Live st' n ↔ Live st n ∧ KeyTree.through k (n.path.drop current.length) = false)) :
    entries st' current nodes = KeyTree.others k (entries st current nodes) := by
  induction nodes with
  | nil => rfl
  | cons n nodes ih =>
    have ih := ih fun m hm => h m (by simp [hm])
    have hn := h n (by simp)
    by_cases hp : current <+: n.path
    · have hn := hn hp
      by_cases hl : Live st n
      · rw [entries_cons_of_live st current n nodes ⟨hl, hp⟩]
        cases ht : KeyTree.through k (n.path.drop current.length) with
        | false =>
          rw [entries_cons_of_live st' current n nodes ⟨hn.mpr ⟨hl, ht⟩, hp⟩, ih]
          simp [KeyTree.others, ht]
        | true =>
          rw [entries_cons_of_skip st' current n nodes fun hc => by simp [hn.mp hc.1 |>.2] at ht, ih]
          simp [KeyTree.others, ht]
      · rw [entries_cons_of_skip st current n nodes (fun hc => hl hc.1),
          entries_cons_of_skip st' current n nodes (fun hc => hl (hn.mp hc.1).1), ih]
    · rw [entries_cons_of_skip st current n nodes (fun hc => hp hc.2),
        entries_cons_of_skip st' current n nodes (fun hc => hp hc.2), ih]

theorem mem_under_entries (st : Emission σ) (current : PathBase) (k : Bytes)
    (nodes : List (NodeBase σ)) (m : NodeBase σ) (hm : m ∈ nodes) (hl : Live st m)
    (hp : current <+: m.path) :
    m ∈ (KeyTree.under k (entries st current nodes)).map Prod.snd ↔
      KeyTree.through k (m.path.drop current.length) = true := by
  simp only [KeyTree.under, entries, List.map_map, List.mem_map, List.mem_filter,
    decide_eq_true_eq, Function.comp]
  constructor
  · rintro ⟨e, ⟨⟨n, -, rfl⟩, ht⟩, rfl⟩
    exact ht
  · intro ht
    exact ⟨_, ⟨⟨m, ⟨hm, hl, hp⟩, rfl⟩, ht⟩, rfl⟩

theorem live_of_flags (nodes vs : List (NodeBase σ)) (st st' : Emission σ)
    (hf : ∀ m ∈ nodes, st'.emitted m.id = true ↔ st.emitted m.id = true ∨ m ∈ vs)
    (n : NodeBase σ) (hn : n ∈ nodes) : Live st' n ↔ Live st n ∧ n ∉ vs := by
  have h := hf n hn
  simp only [Live, ← Bool.not_eq_true] at h ⊢
  rw [h]
  tauto

/-- The loop of `emit_level` for the path `current` is about to look at `rest`: what lies before has
been emitted or belongs elsewhere. -/
structure LoopAt (nodes : List (NodeBase σ)) (fuel : Nat) (current : PathBase)
    (pre rest : List (NodeBase σ)) (st : Emission σ) : Prop where
  split : nodes = pre ++ rest
  reach : Reaches nodes fuel current st
  done : ∀ n ∈ pre, current <+: n.path → ¬ Live st n

section LoopAt
variable {nodes pre rest : List (NodeBase σ)} {fuel : Nat} {current : PathBase} {st : Emission σ}
  {n : NodeBase σ}

theorem LoopAt.mem (h : LoopAt nodes fuel current pre (n :: rest) st) : n ∈ nodes := by
  simp [h.split]

theorem LoopAt.mem_rest (h : LoopAt nodes fuel current pre (n :: rest) st) (m : NodeBase σ)
    (hm : m ∈ rest) : m ∈ nodes := by
  simp [h.split, hm]

theorem LoopAt.not_mem_rest (h : LoopAt nodes fuel current pre (n :: rest) st)
    (hw : Emittable nodes) : n ∉ rest := by
  have hd := hw.distinct
  rw [h.split, List.nodup_append] at hd
  exact (List.nodup_cons.mp hd.2.1).1

theorem LoopAt.skip (h : LoopAt nodes fuel current pre (n :: rest) st)
    (hn : ¬ (Live st n ∧ current <+: n.path)) : LoopAt nodes fuel current (pre ++ [n]) rest st := by
  refine ⟨by simp [h.split], h.reach, ?_⟩
  intro m hm hp hl
  rcases List.mem_append.mp hm with hm | hm
  · exact h.done m hm hp hl
  · rw [List.mem_singleton.mp hm] at hp hl
    exact hn ⟨hl, hp⟩

/-- The loop moves on once the current node has been emitted, alone or with others. -/
theorem LoopAt.next (h : LoopAt nodes fuel current pre (n :: rest) st) (st' : Emission σ)
    (vs : List (NodeBase σ)) (hlive : ∀ m ∈ nodes, Live st' m ↔ Live st m ∧ m ∉ vs) (hn : n ∈ vs) :
    LoopAt nodes fuel current (pre ++ [n]) rest st' := by
  refine ⟨by simp [h.split], fun m hm hl hp => h.reach m hm ((hlive m hm).mp hl).1 hp,
    ?_⟩
  intro m hm hp hl
  rcases List.mem_append.mp hm with hm | hm
  · exact h.done m hm hp ((hlive m (by simp [h.split, hm])).mp hl).1
  · rw [List.mem_singleton.mp hm] at hl
    exact ((hlive n h.mem).mp hl).2 hn

/-- No live node ends where the inner object of the current node begins. -/
theorem LoopAt.ends (h : LoopAt nodes fuel current pre (n :: rest) st) (hw : Emittable nodes)
    (hl : Live st n) (k k' : Bytes) (p : List Bytes) (hp : current ++ k :: k' :: p = n.path) :
    ∀ m ∈ nodes, Live st m → m.path ≠ current ++ [k] := by
  intro m hm hml hmp
  rw [h.split] at hm
  rcases List.mem_append.mp hm with hm | hm
  · exact h.done m hm ⟨[k], hmp.symm⟩ hml
  · have hne : m.path ≠ n.path := by simp [hmp, ← hp]
    have hpfx : m.path <+: n.path := ⟨k' :: p, by simp [hmp, ← hp]⟩
    rcases List.mem_cons.mp hm with rfl | hm
    · exact hne rfl
    · have ho := hw.order
      rw [h.split, List.pairwise_append, List.pairwise_cons] at ho
      exact hne (ho.2.1.1 m hm hl.2 hml.2 hpfx)

/-- The recursion below the current node finds it first, then the entries that share its key. -/
theorem LoopAt.inner (h : LoopAt nodes fuel current pre (n :: rest) st) (hw : Emittable nodes)
    (hl : Live st n) (k k' : Bytes) (p : List Bytes) (hp : current ++ k :: k' :: p = n.path) :
    entries st (current ++ [k]) nodes =
      (k' :: p, n) :: KeyTree.under k (entries st current rest) := by
  rw [entries_under st current k nodes (h.ends hw hl k k' p hp), h.split, entries_append,
    entries_eq_nil st current pre h.done, List.nil_append,
    entries_cons_of_live st current n rest ⟨hl, _, hp⟩]
  simp [KeyTree.under, KeyTree.through, ← hp]

theorem LoopAt.reach_inner (h : LoopAt nodes (fuel + 1) current pre (n :: rest) st)
    (hw : Emittable nodes) (hl : Live st n) (k k' : Bytes) (p : List Bytes)
    (hp : current ++ k :: k' :: p = n.path) : Reaches nodes fuel (current ++ [k]) st := by
  intro m hm hml hmp
  obtain ⟨q, hq⟩ := hmp
  obtain ⟨-, hmf⟩ := h.reach m hm hml ⟨[k] ++ q, by simp [← hq]⟩
  have hqne : q ≠ [] := fun he => h.ends hw hl k k' p hp m hm hml (by simp [← hq, he])
  have := List.length_pos_iff.mpr hqne
  refine ⟨?_, ?_⟩
  · simp only [← hq, List.length_append]
    omega
  · simp only [List.length_append, List.length_singleton]
    omega

end LoopAt

section level
variable [Buffer σ]

/-- A node directly below the current path is written as one member. -/
theorem emitMember_leaf (recurse : PathBase → Emission σ → Option (Emission σ × Bool)) (c : Nat)
    (n : NodeBase σ) (k : Bytes) (first : Bool) (st : Emission σ)
    (hk : n.path.getElement c = some k) (hd : n.path.depth = c + 1) :
    emitMember recurse c n first st =
      runItems (sepItems first ++ [.key k, .punct (ch ':'), .value n]) st := by
  rw [runItems_append, emitMember, separator_eq]
  apply andThen_congr _ _ _
  intro st _
  simp only [hk, hd, if_true, Option.bind_eq_bind, Option.bind_some]
  refine andThen_congr _ _ _ fun st _ => andThen_congr _ _ _ ?_
  intro st _
  rw [runItems_single, runItem]

theorem separator_emitted (first : Bool) (st st' : Emission σ) (ok : Bool)
    (h : separator first st = some (st', ok)) : st'.emitted = st.emitted := by
  cases first
  · exact write_emitted st st' _ ok h
  · cases h
    rfl

/-- The items of an inner object with key `k`. -/
def innerItems (first : Bool) (k : Bytes) (ms : List (Bytes × KeyTree Bytes (NodeBase σ))) :
    List (Item (NodeBase σ)) :=
  sepItems first ++ .key k :: .punct (ch ':') :: treeItems (.node ms)

/-- A deeper node opens the inner object that its path goes through. -/
theorem emitMember_inner (recurse : PathBase → Emission σ → Option (Emission σ × Bool)) (c : Nat)
    (n : NodeBase σ) (k : Bytes) (ms : List (Bytes × KeyTree Bytes (NodeBase σ))) (first : Bool)
    (st : Emission σ) (hk : n.path.getElement c = some k) (hd : n.path.depth ≠ c + 1)
    (hinner : ∀ st', st'.emitted = st.emitted →
      recurse (n.path.view (c + 1)) st' = runItems (memberItems true ms) st') :
    emitMember recurse c n first st = runItems (innerItems first k ms) st := by
  rw [innerItems, runItems_append, emitMember, ← separator_eq]
  apply andThen_congr _ _ _
  intro st1 h1
  simp only [hk, hd, if_false, Option.bind_eq_bind, Option.bind_some]
  refine andThen_congr _ _ _ fun st2 h2 => andThen_congr _ _ _ fun st3 h3 =>
    andThen_congr _ _ _ ?_
  intro st4 h4
  have hflags : st4.emitted = st.emitted := by
    rw [write_emitted _ _ _ _ h4, write_emitted _ _ _ _ h3, writeEscaped_emitted _ _ _ _ h2,
      separator_emitted _ _ _ _ h1]
  rw [hinner st4 hflags, runItems_append]
  apply andThen_congr _ _ _
  intro st5 _
  rw [runItems_single, runItem]

/-- The call of `emit_level` writes the members of the tree of the live entries. -/
def LevelSpec (nodes : List (NodeBase σ)) (fuel : Nat) : Prop :=
  ∀ current st, 0 < fuel → Reaches nodes fuel current st →
    emitLevel nodes fuel current st =
      runItems (memberItems true (KeyTree.build (entries st current nodes))) st

/-- One turn of the loop on a live node: the member it writes, and the entries it leaves. -/
theorem emitMember_eq (nodes pre rest : List (NodeBase σ)) (fuel : Nat) (current : PathBase)
    (n : NodeBase σ) (first : Bool) (st : Emission σ) (hw : Emittable nodes)
    (hlevel : LevelSpec nodes fuel) (hat : LoopAt nodes (fuel + 1) current pre (n :: rest) st)
    (hl : Live st n) (hp : current <+: n.path) :
    ∃ its later,
      emitMember (emitLevel nodes fuel) current.depth n first st = runItems its st ∧
      memberItems first (KeyTree.build (entries st current (n :: rest))) =
        its ++ memberItems false (KeyTree.build later) ∧
      ∀ st', runItems its st = some (st', true) →
        LoopAt nodes (fuel + 1) current (pre ++ [n]) rest st' ∧
          entries st' current rest = later := by
  obtain ⟨hlen, hfuel⟩ := hat.reach n hat.mem hl hp
  rw [entries_cons_of_live st current n rest ⟨hl, hp⟩]
  obtain ⟨p, hp⟩ := hp
  have hdrop : n.path.drop current.length = p := by simp [← hp]
  rw [hdrop]
  rcases p with _ | ⟨k, _ | ⟨k', p⟩⟩
  · simp [← hp] at hlen
  · have hk : n.path.getElement current.depth = some k := by
      simp [PathBase.getElement, PathBase.depth, ← hp]
    have hd : n.path.depth = current.depth + 1 := by simp [PathBase.depth, ← hp]
    refine ⟨_, entries st current rest, emitMember_leaf _ _ n k first st hk hd, ?_, ?_⟩
    · simp [KeyTree.build_cons_leaf, memberItems, treeItems]
    · intro st' hst
      have hvals : itemValues (sepItems first ++ [.key k, .punct (ch ':'), .value n]) = [n] := by
        simp [itemValues_append, itemValues]
      have hflags := runItems_flags nodes hw.flags _ (by rw [hvals]; simpa using hat.mem) st st' hst
      rw [hvals] at hflags
      have hlive := live_of_flags nodes [n] st st' hflags
      refine ⟨hat.next st' [n] hlive (by simp), entries_congr st st' current rest ?_⟩
      intro m hm _
      rw [hlive m (hat.mem_rest m hm)]
      have : m ≠ n := fun he => hat.not_mem_rest hw (he ▸ hm)
      simp [this]
  · have hk : n.path.getElement current.depth = some k := by
      simp [PathBase.getElement, PathBase.depth, ← hp]
    have hd : n.path.depth ≠ current.depth + 1 := by simp [PathBase.depth, ← hp]
    have hview : n.path.view (current.depth + 1) = current ++ [k] := by
      simp [PathBase.view, PathBase.depth, ← hp, List.take_append]
    have hdeep : current.length + 2 ≤ n.path.length := by simp [← hp]
    have hall := hat.inner hw hl k k' p hp
    have hinner : ∀ st', st'.emitted = st.emitted →
        emitLevel nodes fuel (n.path.view (current.depth + 1)) st' =
          runItems (memberItems true (KeyTree.build
            ((k' :: p, n) :: KeyTree.under k (entries st current rest)))) st' := by
      intro st' hst
      have hlive : ∀ m, Live st' m ↔ Live st m := fun m => by simp [Live, hst]
      rw [hview, hlevel _ st' (by omega) fun m hm hml hmp =>
        hat.reach_inner hw hl k k' p hp m hm ((hlive m).mp hml) hmp,
        entries_congr st st' _ nodes (fun m _ _ => hlive m), hall]
    refine ⟨_, KeyTree.others k (entries st current rest),
      emitMember_inner _ _ n k _ first st hk hd hinner, ?_, ?_⟩
    · simp [KeyTree.build_cons_node, memberItems, innerItems]
    · intro st' hst
      have hvals : ∀ m, m ∈ itemValues (innerItems first k (KeyTree.build
            ((k' :: p, n) :: KeyTree.under k (entries st current rest)))) ↔
          m ∈ n :: (KeyTree.under k (entries st current rest)).map Prod.snd := by
        intro m
        have hne : ∀ e ∈ (k' :: p, n) :: KeyTree.under k (entries st current rest), e.1 ≠ [] := by
          rw [← hall]
          intro e he hnil
          obtain ⟨hm, hml, hmp⟩ := mem_entries st _ nodes e he
          rw [hnil, List.append_nil] at hmp
          exact hat.ends hw hl k k' p hp e.2 hm hml hmp
        rw [innerItems, itemValues_append, itemValues_sepItems, List.nil_append, itemValues,
          itemValues, itemValues_treeItems, KeyTree.leaves,
          (KeyTree.leavesOf_build _ hne).mem_iff]
        rfl
      have hin : ∀ m ∈ n :: (KeyTree.under k (entries st current rest)).map Prod.snd, m ∈ nodes := by
        have : n :: (KeyTree.under k (entries st current rest)).map Prod.snd =
          (entries st (current ++ [k]) nodes).map Prod.snd := by rw [hall]; rfl
        rw [this]
        intro m hm
        obtain ⟨e, he, rfl⟩ := List.mem_map.mp hm
        exact (mem_entries st _ nodes e he).1
      have hflags := runItems_flags nodes hw.flags _ (fun m hm => hin m ((hvals m).mp hm)) st st' hst
      simp only [hvals] at hflags
      have hlive := live_of_flags nodes _ st st' hflags
      refine ⟨hat.next st' _ hlive (by simp), entries_others st st' current k rest ?_⟩
      intro m hm hmp
      have hne : m ≠ n := fun he => hat.not_mem_rest hw (he ▸ hm)
      rw [hlive m (hat.mem_rest m hm), List.mem_cons, not_or, and_congr_right_iff]
      intro hml
      rw [mem_under_entries st current k rest m hm hml hmp, Bool.not_eq_true]
      exact ⟨fun h => h.2, fun h => ⟨hne, h⟩⟩

theorem emitLoop_eq (nodes rest pre : List (NodeBase σ)) (fuel : Nat) (current : PathBase)
    (first : Bool) (st : Emission σ) (hw : Emittable nodes) (hlevel : LevelSpec nodes fuel)
    (hat : LoopAt nodes (fuel + 1) current pre rest st) :
    emitLoop (emitLevel nodes fuel) current rest first st =
      runItems (memberItems first (KeyTree.build (entries st current rest))) st := by
  induction rest generalizing pre first st with
  | nil => rfl
  | cons n rest ih =>
    by_cases hin : Live st n ∧ current <+: n.path
    · obtain ⟨hl, hp⟩ := hin
      have hlocal : ¬ (st.emitted n.id || n.omitted) = true := by simp [hl.1, hl.2]
      have hmatch : ¬ (current.depth > 0 && !n.path.matchesParent current) = true := by
        simp [(PathBase.matchesParent_iff _ _).mpr hp]
      obtain ⟨its, later, hmember, hitems, hnext⟩ :=
        emitMember_eq nodes pre rest fuel current n first st hw hlevel hat hl hp
      rw [emitLoop, if_neg hlocal, if_neg hmatch, hitems, runItems_append, hmember]
      apply andThen_congr _ _ _
      intro st' hst
      obtain ⟨hat', rfl⟩ := hnext st' hst
      exact ih (pre ++ [n]) false st' hat'
    · have hat' := hat.skip hin
      rw [entries_cons_of_skip st current n rest hin, emitLoop]
      split_ifs with h1 h2
      · exact ih (pre ++ [n]) first st hat'
      · exact ih (pre ++ [n]) first st hat'
      · refine absurd ⟨by simpa [Live] using h1, ?_⟩ hin
        rcases Nat.eq_zero_or_pos current.depth with h0 | h0
        · rw [List.eq_nil_of_length_eq_zero h0]
          exact List.nil_prefix
        · rw [← PathBase.matchesParent_iff]
          simpa [h0] using h2

theorem emitLevel_eq (nodes : List (NodeBase σ)) (hw : Emittable nodes) (fuel : Nat) :
    LevelSpec nodes fuel := by
  induction fuel with
  | zero => exact fun _ _ h => absurd h (Nat.lt_irrefl 0)
  | succ fuel ih =>
    intro current st _ hreach
    exact emitLoop_eq nodes nodes [] fuel current true st hw ih ⟨rfl, hreach, by simp⟩

end level

end Espbase.StackJson
