import Espbase.StackJson.ValueWrite

namespace Espbase.StackJson

open Espbase.Lib StackBuffer

mutual
/-- The omitted nodes that an emission of the value meets. -/
def Value.omits : Value → List Nat
  | .stackArray elements => elementOmits elements
  | .spanArray elements => elementOmits elements
  | .streamArray _ elements => elementOmits elements
  | .doc nodes => nodeOmits nodes
  | _ => []

def elementOmits : List Value → List Nat
  | [] => []
  | v :: elements => v.omits ++ elementOmits elements

def nodeOmits : List (NodeInfo × Value) → List Nat
  | [] => []
  | (n, v) :: nodes => (if n.omitted then [n.id] else v.omits) ++ nodeOmits nodes
end

theorem mem_nodeMarks (nodes : List (NodeInfo × Value)) (id : Nat) :
    id ∈ nodeMarks nodes ↔
      ∃ p ∈ nodes, p.1.omitted = false ∧ (id = p.1.id ∨ id ∈ p.2.marks) := by
  induction nodes with
  | nil => simp [nodeMarks]
  | cons p nodes ih =>
    rw [nodeMarks, List.mem_append, ih]
    cases ho : p.1.omitted <;> simp [ho]

theorem not_mem_nodeOmits (nodes : List (NodeInfo × Value)) (id : Nat) (h : id ∉ nodeOmits nodes)
    (p : NodeInfo × Value) (hp : p ∈ nodes) :
    (p.1.omitted = true → id ≠ p.1.id) ∧ (p.1.omitted = false → id ∉ p.2.omits) := by
  induction nodes with
  | nil => cases hp
  | cons q nodes ih =>
    rw [nodeOmits, List.mem_append, not_or] at h
    rcases List.mem_cons.mp hp with rfl | hp
    · cases ho : p.1.omitted with
      | true => exact ⟨fun _ => by simpa [ho] using h.1, nofun⟩
      | false => exact ⟨nofun, fun _ => by simpa [ho] using h.1⟩
    · exact ih h.2 hp

variable {maxSize : Nat}

/-- A sound buffer with room for the writes `ws`. -/
structure HasRoom (st : StackEmission maxSize) (ws : List Bytes) : Prop where
  within : st.buf.Within
  good : st.buf.bad = false
  fits : st.buf.head + ws.flatten.length ≤ maxSize

theorem HasRoom.left {st : StackEmission maxSize} {us ws : List Bytes} (h : HasRoom st (us ++ ws)) :
    HasRoom st us := by
  refine ⟨h.within, h.good, ?_⟩
  have := h.fits
  rw [List.flatten_append, List.length_append] at this
  omega

theorem HasRoom.next {st st1 : StackEmission maxSize} {us ws : List Bytes} (h : HasRoom st (us ++ ws))
    (ha : Appended st.buf us.flatten st1.buf) : HasRoom st1 ws := by
  refine ⟨ha.within, ha.bad.trans h.good, ?_⟩
  have := h.fits
  rw [List.flatten_append, List.length_append] at this
  rw [ha.head h.within]
  omega

/-- With room for its writes, the emission sets the flag of `id` when `on`, and keeps it when it was
set before. -/
def Lights (id : Nat) (on : Prop) (ws : List Bytes)
    (e : StackEmission maxSize → Option (StackEmission maxSize)) : Prop :=
  ∀ st st', HasRoom st ws → e st = some st' → on ∨ st.emitted id = true → st'.emitted id = true

section Lights
variable {id : Nat} {on on' : Prop} {clean : Prop} {ids : List Nat} {us ws : List Bytes}

theorem Lights.mono {e : StackEmission maxSize → Option (StackEmission maxSize)}
    (h : Lights id on ws e) (hon : on' → on) : Lights id on' ws e :=
  fun st st' hroom he hl => h st st' hroom he (hl.imp_left hon)

theorem Lights.bind {e k : StackEmission maxSize → Option (StackEmission maxSize)}
    (he : Lights id on us e) (hp : Puts clean ids us e) (hk : Lights id on' ws k) :
    Lights id (on ∨ on') (us ++ ws) fun st => (e st).bind k := by
  intro st st' hroom h hl
  obtain ⟨st1, h1, h2⟩ := Option.bind_eq_some_iff.mp h
  obtain ⟨st1', h1', hem⟩ := hp st hroom.within
  rw [h1] at h1'
  cases h1'
  have ha := (hem.fits hroom.good hroom.left.fits).2
  apply hk st1 st' (hroom.next ha) h2
  rcases hl with (hon | hon') | hold
  · exact .inr (he st st1 hroom.left h1 (.inl hon))
  · exact .inl hon'
  · exact .inr (he st st1 hroom.left h1 (.inr hold))

/-- Set flags of `id` stay set. -/
theorem keepRule (id : Nat) : FlagRule fun i a b => i = id → a = true → b = true :=
  ⟨fun _ _ _ h => h, fun _ _ _ _ hab hbc hi ha => hbc hi (hab hi ha)⟩

theorem lights_of_keeps (ws : List Bytes)
    (e : StackEmission maxSize → Option (StackEmission maxSize))
    (h : PutMoves (fun i a b => i = id → a = true → b = true) e) : Lights id False ws e := by
  intro st st' _ he hl
  exact h st st' he id rfl (hl.resolve_left fun hf => hf.elim)

theorem put_lights (str : Bytes) : Lights id False ws fun st : StackEmission maxSize => st.put str :=
  lights_of_keeps ws _ (put_moves (keepRule id) str)

theorem bracket_lights (l r : Bytes) (hl : l ≠ [])
    (e : StackEmission maxSize → Option (StackEmission maxSize)) (he : Lights id on ws e)
    (hp : Puts clean ids ws e) :
    Lights id on ([l] ++ (ws ++ [r])) fun st =>
      (st.put l).bind fun st => (e st).bind fun st => st.put r := by
  have hleft : Puts clean ids [l] fun st : StackEmission maxSize => st.put l := put_puts l hl
  exact ((put_lights l).bind hleft (he.bind hp (put_lights r))).mono fun h => .inr (.inl h)

/-- With room for it, an element of a streaming callback is its separator and its value. -/
theorem emitElement_room (first : Bool)
    (e : StackEmission maxSize → Option (StackEmission maxSize)) (hp : Puts clean ids ws e)
    (st : StackEmission maxSize) (hroom : HasRoom st ((if first then [] else [[ch ',']]) ++ ws)) :
    ∃ st1, emitElement e first st = some (st1, false, true) ∧
      (putSeparator first st).bind e = some st1 ∧
      Appended st.buf ((if first then [] else [[ch ',']]) ++ ws).flatten st1.buf := by
  have hgood : Buffer.bad st.buf = false := hroom.good
  obtain ⟨s, hs, hput, ha⟩ : ∃ s, separator first st = some (s, true) ∧
      putSeparator first st = some s ∧
      Appended st.buf (if first then [] else [[ch ',']]).flatten s.buf := by
    have hsep : Emits clean ids _ fun st : StackEmission maxSize => separator first st :=
      separator_emits first
    obtain ⟨s, ok, hs, hem⟩ := hsep st hroom.within
    obtain ⟨rfl, ha⟩ := hem.fits hroom.good hroom.left.fits
    refine ⟨s, hs, ?_, ha⟩
    cases first with
    | true =>
      cases hs
      rfl
    | false =>
      have hs : st.write [ch ','] = some (s, true) := hs
      simp [putSeparator, Emission.put, hs]
  have hroom1 := hroom.next ha
  obtain ⟨st1, h1, hem1⟩ := hp s hroom1.within
  have ha1 := (hem1.fits hroom1.good hroom1.fits).2
  have hgood1 : Buffer.bad st1.buf = false := ha1.bad.trans hroom1.good
  refine ⟨st1, ?_, by rw [hput]; exact h1, by rw [List.flatten_append]; exact ha.trans ha1⟩
  simp [emitElement, hgood, hs, h1, hgood1]

/-- One more element of a streaming callback that has room for it. -/
theorem streamStep_lights (breaks first : Bool) (rest : Bool → List Bytes)
    (e : StackEmission maxSize → Option (StackEmission maxSize))
    (k : Bool → StackEmission maxSize → Option (StackEmission maxSize)) (he : Lights id on ws e)
    (hp : Puts clean ids ws e) (hk : Lights id on' (rest false) (k false)) :
    Lights id (on ∨ on') ((if first then [] else [[ch ',']]) ++ (ws ++ rest false)) fun st =>
      (emitElement e first st).bind fun x =>
        if breaks && !x.2.2 then some x.1 else k x.2.1 x.1 := by
  intro st st' hroom h hl
  rw [← List.append_assoc] at hroom
  obtain ⟨st1, h1, hone, ha⟩ := emitElement_room first e hp st hroom.left
  simp only [h1, Bool.not_true, Bool.and_false, Option.bind_some, Bool.false_eq_true,
    if_false] at h
  have hsep : Puts clean ids _ fun st : StackEmission maxSize => putSeparator first st :=
    putSeparator_puts first
  have hkept : Lights id False (if first then [] else [[ch ',']])
      fun st : StackEmission maxSize => putSeparator first st :=
    lights_of_keeps _ _ (putSeparator_moves (keepRule id) first)
  have hboth := (hkept.bind hsep he) st st1 hroom.left hone
  apply hk st1 st' (hroom.next ha) h
  rcases hl with (hon | hon') | hold
  · exact .inr (hboth (.inl (.inr hon)))
  · exact .inl hon'
  · exact .inr (hboth (.inr hold))

/-- Items written with room for them: some value among them sets the flag, or it was set before. -/
theorem runItems_lights (its : List (Item (NodeBase (StackBuffer maxSize) × List Bytes)))
    (on : NodeBase (StackBuffer maxSize) × List Bytes → Prop)
    (hp : ∀ x ∈ itemValues its, Puts clean ids x.2 x.1.emitValue)
    (hl : ∀ x ∈ itemValues its, Lights id (on x) x.2 x.1.emitValue) (st st' : StackEmission maxSize)
    (ok : Bool) (hroom : HasRoom st (itemChunks (its.map (Item.map Prod.snd))))
    (h : runItems (its.map (Item.map Prod.fst)) st = some (st', ok))
    (hlit : (∃ x ∈ itemValues its, on x) ∨ st.emitted id = true) : st'.emitted id = true := by
  induction its generalizing st with
  | nil =>
    cases h
    exact hlit.resolve_left fun hx => by simp [itemValues] at hx
  | cons it its ih =>
    have hsplit : itemValues (it :: its) = itemValues [it] ++ itemValues its :=
      itemValues_append [it] its
    rw [hsplit] at hp hl hlit
    have hone : Emits clean ids (itemChunks ([it].map (Item.map Prod.snd)))
        (runItems ([it].map (Item.map Prod.fst))) :=
      runItems_emits [it] fun x hx => hp x (List.mem_append_left _ hx)
    obtain ⟨st1, ok1, h1, hem⟩ := hone st hroom.within
    have hchunks : itemChunks ((it :: its).map (Item.map Prod.snd)) =
        itemChunks ([it].map (Item.map Prod.snd)) ++ itemChunks (its.map (Item.map Prod.snd)) := by
      simp [itemChunks]
    rw [hchunks] at hroom
    obtain ⟨rfl, ha⟩ := hem.fits hroom.good hroom.left.fits
    rw [List.map_singleton, runItems_single] at h1
    rw [List.map_cons, runItems, h1] at h
    apply ih (fun x hx => hp x (List.mem_append_right _ hx))
      (fun x hx => hl x (List.mem_append_right _ hx)) st1 (hroom.next ha) h
    have hlast : (∃ x ∈ itemValues [it], on x) ∨ st.emitted id = true → st1.emitted id = true := by
      intro hlit
      cases it with
      | punct c =>
        rw [write_emitted _ _ _ _ h1]
        exact hlit.resolve_left fun hx => by simp [itemValues] at hx
      | key k =>
        rw [writeEscaped_emitted _ _ _ _ h1]
        exact hlit.resolve_left fun hx => by simp [itemValues] at hx
      | value x =>
        obtain ⟨s, hs, he⟩ := Option.bind_eq_some_iff.mp h1
        cases he
        refine hl x (by simp [itemValues]) st _ ?_ hs (hlit.imp_left ?_)
        · have hr := hroom.left
          simpa [itemChunks, Item.map, Item.chunks] using hr
        · simp [itemValues]
    rcases hlit with ⟨x, hx, hon⟩ | hold
    · rcases List.mem_append.mp hx with hx | hx
      · exact .inr (hlast (.inl ⟨x, hx, hon⟩))
      · exact .inl ⟨x, hx, hon⟩
    · exact .inr (hlast (.inr hold))

/-- The values that a document emits are those of its non-omitted nodes. -/
theorem mem_pairTree (nodes : List (NodeInfo × Value)) (hpaths : ∀ p ∈ nodes, p.1.path ≠ [])
    (x : NodeBase (StackBuffer maxSize) × List Bytes) :
    x ∈ itemValues (treeItems (pairTree maxSize nodes)) ↔
      ∃ p ∈ nodes, p.1.omitted = false ∧ x = (valueNode p.1 p.2, p.2.chunks) := by
  have hne : ∀ e ∈ shown id (valuePairs maxSize nodes), e.1 ≠ [] := by
    intro e he
    simp only [shown, valuePairs, List.mem_map, List.mem_filter] at he
    obtain ⟨_, ⟨⟨p, hp, rfl⟩, -⟩, rfl⟩ := he
    exact hpaths p hp
  rw [itemValues_treeItems, pairTree, KeyTree.leaves, (KeyTree.leavesOf_build _ hne).mem_iff]
  simp only [shown, valuePairs, List.mem_map, List.mem_filter]
  constructor
  · intro h
    obtain ⟨_, ⟨_, ⟨⟨p, hp, rfl⟩, ho⟩, rfl⟩, rfl⟩ := h
    exact ⟨p, hp, by simpa using ho, rfl⟩
  · intro h
    obtain ⟨p, hp, ho, rfl⟩ := h
    exact ⟨_, ⟨_, ⟨⟨p, hp, rfl⟩, by simpa using ho⟩, rfl⟩, rfl⟩

theorem valueNode_lights (n : NodeInfo) (v : Value)
    (hv : Lights id on v.chunks fun st : StackEmission maxSize => writeJsonValue v st) :
    Lights id (id = n.id ∨ on) v.chunks (valueNode (σ := StackBuffer maxSize) n v).emitValue := by
  intro st st' hroom h hl
  obtain ⟨st1, h1, h2⟩ := Option.bind_eq_some_iff.mp h
  cases h2
  simp only [Emission.onEmit, Emission.setEmitted]
  split_ifs with he
  · rfl
  · exact hv st st1 hroom h1 (hl.imp_left fun ho => ho.resolve_left he)

/-- A document that has room for its text flags the nodes emitted with it. -/
theorem emitDocument_lights (nodes : List (NodeInfo × Value)) (hvalid : (Value.doc nodes).Valid)
    (hl : ∀ p ∈ nodes, p.1.omitted = false → Lights id (id ∈ p.2.marks) p.2.chunks
      fun st : StackEmission maxSize => writeJsonValue p.2 st)
    (homit : id ∉ nodeOmits nodes) (st st' : StackEmission maxSize) (n : Nat)
    (hroom : HasRoom st (documentChunks nodes)) (h : emitDocument nodes st = some (st', n))
    (hlit : id ∈ nodeMarks nodes ∨ st.emitted id = true) : st'.emitted id = true := by
  by_cases hne : nodes = []
  · subst hne
    obtain ⟨s, ok, he, hflags, -⟩ := emitDocument_nil st hroom.within
    rw [he] at h
    cases h
    rw [hflags]
    exact hlit.resolve_left fun hm => by simp [nodeMarks] at hm
  · have hpaths : ∀ p ∈ nodes, p.1.path ≠ [] := fun p hp =>
      hvalid.1.paths p.1 (List.mem_map.mpr ⟨p, hp, rfl⟩)
    have hne' : valueNodes (σ := StackBuffer maxSize) nodes ≠ [] := by
      simpa [valueNodes_eq] using hne
    obtain ⟨st0, hbuf, hflags, heq⟩ := emitJsonNodes_eq (valueNodes nodes)
      (valueNodes_emittable nodes hvalid.1) hne' st
    change emitDocument nodes st = _ at heq
    rw [heq, ← pairTree_fst] at h
    obtain ⟨⟨s, ok⟩, hrun, hs⟩ := Option.bind_eq_some_iff.mp h
    cases hs
    have hroom0 : HasRoom st0 (itemChunks
        ((treeItems (pairTree maxSize nodes)).map (Item.map Prod.snd))) := by
      rw [← documentChunks_cons maxSize nodes hne]
      exact ⟨by rw [hbuf]; exact hroom.within, by rw [hbuf]; exact hroom.good,
        by rw [hbuf]; exact hroom.fits⟩
    refine runItems_lights (treeItems (pairTree maxSize nodes))
      (fun x => ∃ p ∈ nodes, p.1.omitted = false ∧ x = (valueNode p.1 p.2, p.2.chunks) ∧
        (id = p.1.id ∨ id ∈ p.2.marks))
      (pairTree_puts nodes hpaths (nodes_puts nodes hvalid.2) (List.Subset.refl _)) ?_ st0 _ ok
      hroom0 hrun ?_
    · intro x hx
      obtain ⟨p, hp, ho, rfl⟩ := (mem_pairTree nodes hpaths x).mp hx
      apply (valueNode_lights p.1 p.2 (hl p hp ho)).mono
      intro hon
      obtain ⟨q, hq, -, hpq, hon⟩ := hon
      have hid : p.1.id = q.1.id :=
        congrArg (fun x : NodeBase (StackBuffer maxSize) × List Bytes => x.1.id) hpq
      have hdistinct := hvalid.1.distinct
      rw [List.map_map] at hdistinct
      rwa [List.inj_on_of_nodup_map hdistinct hp hq hid]
    · have listed (p : NodeInfo × Value) (hp : p ∈ nodes) (ho : p.1.omitted = false)
          (hon : id = p.1.id ∨ id ∈ p.2.marks) :
          ∃ x ∈ itemValues (treeItems (pairTree maxSize nodes)), ∃ p ∈ nodes,
            p.1.omitted = false ∧ x = (valueNode p.1 p.2, p.2.chunks) ∧
              (id = p.1.id ∨ id ∈ p.2.marks) :=
        ⟨_, (mem_pairTree nodes hpaths _).mpr ⟨p, hp, ho, rfl⟩, p, hp, ho, rfl, hon⟩
      rcases hlit with hm | hold
      · obtain ⟨p, hp, ho, hon⟩ := (mem_nodeMarks nodes id).mp hm
        exact .inl (listed p hp ho hon)
      · by_cases hin : id ∈ (valueNodes (σ := StackBuffer maxSize) nodes).map fun n => n.id
        · rw [valueNodes_eq, List.map_map] at hin
          obtain ⟨p, hp, hid⟩ := List.mem_map.mp hin
          cases ho : p.1.omitted with
          | true => exact absurd hid.symm ((not_mem_nodeOmits nodes id homit p hp).1 ho)
          | false => exact .inl (listed p hp ho (.inl hid.symm))
        · exact .inr ((hflags id hin).trans hold)

end Lights

section value

theorem notin_left {id : Nat} {as bs : List Nat} (h : id ∉ as ++ bs) : id ∉ as :=
  fun hm => h (List.mem_append_left _ hm)

theorem notin_right {id : Nat} {as bs : List Nat} (h : id ∉ as ++ bs) : id ∉ bs :=
  fun hm => h (List.mem_append_right _ hm)

mutual
/-- A value with room for its text flags the nodes emitted with it, and takes no flag back but those
of omitted nodes. -/
theorem writeJsonValue_lights (id : Nat) : (v : Value) → v.Valid → id ∉ v.omits →
    Lights id (id ∈ v.marks) v.chunks fun st : StackEmission maxSize => writeJsonValue v st
  | .null, _, _ => (put_lights _).mono fun h => nomatch h
  | .bool _, _, _ => (put_lights _).mono fun h => nomatch h
  | .int value, _, _ =>
    (lights_of_keeps _ _ (putInteger_moves (keepRule id) value)).mono fun h => nomatch h
  | .str value, _, _ =>
    (lights_of_keeps _ _ (putEscaped_moves (keepRule id) value)).mono fun h => nomatch h
  | .cstr none, _, _ => (put_lights _).mono fun h => nomatch h
  | .cstr (some _), _, _ =>
    (lights_of_keeps _ _ (putEscaped_moves (keepRule id) _)).mono fun h => nomatch h
  | .stackArray elements, hv, ho =>
    bracket_lights _ _ (by simp) _ (elementLoop_lights id elements hv ho true)
      (elementLoop_puts elements hv true)
  | .spanArray elements, hv, ho =>
    bracket_lights _ _ (by simp) _ (elementLoop_lights id elements hv ho true)
      (elementLoop_puts elements hv true)
  | .streamArray breaks elements, hv, ho =>
    bracket_lights _ _ (by simp) _ (streamLoop_lights id breaks elements hv ho true)
      (streamLoop_puts breaks elements hv true)
  | .print texts, _, _ =>
    (lights_of_keeps _ _ (bracket_moves (keepRule id) _ _ _ (printLoop_moves (keepRule id) texts))).mono
      fun h => nomatch h
  | .doc nodes, hv, ho => by
    intro st st' hroom h hlit
    obtain ⟨⟨s, n⟩, h1, h2⟩ := Option.bind_eq_some_iff.mp h
    cases h2
    exact emitDocument_lights nodes hv (nodes_lights id nodes hv.2 ho) ho st _ n hroom h1 hlit

theorem elementLoop_lights (id : Nat) : (elements : List Value) → ValidElements elements →
    id ∉ elementOmits elements → (first : Bool) →
    Lights id (id ∈ elementMarks elements) (separated first (elementChunks elements))
      fun st : StackEmission maxSize => elementLoop elements first st
  | [], _, _, _ => fun st st' _ h hl => by
    cases h
    exact hl.resolve_left fun hm => nomatch hm
  | v :: elements, hv, ho, first => by
    have hone : Lights id (id ∈ v.marks) v.chunks
        fun st : StackEmission maxSize => writeJsonValue v st :=
      writeJsonValue_lights id v hv.1 (notin_left ho)
    have hrest : Lights id (id ∈ elementMarks elements) (separated false (elementChunks elements))
        fun st : StackEmission maxSize => elementLoop elements false st :=
      elementLoop_lights id elements hv.2 (notin_right ho) false
    have hsep : Lights id False (if first then [] else [[ch ',']])
        fun st : StackEmission maxSize => putSeparator first st :=
      lights_of_keeps _ _ (putSeparator_moves (keepRule id) first)
    have hputs : Puts (v.plain = true) v.ids v.chunks
        fun st : StackEmission maxSize => writeJsonValue v st := writeJsonValue_puts v hv.1
    have hputsep : Puts (v.plain = true) v.ids _
        fun st : StackEmission maxSize => putSeparator first st := putSeparator_puts first
    apply (hsep.bind hputsep (hone.bind hputs hrest)).mono
    intro hm
    exact .inr (List.mem_append.mp hm)

theorem streamLoop_lights (id : Nat) (breaks : Bool) : (elements : List Value) →
    ValidElements elements → id ∉ elementOmits elements → (first : Bool) →
    Lights id (id ∈ elementMarks elements) (separated first (elementChunks elements))
      fun st : StackEmission maxSize => streamLoop breaks elements first st
  | [], _, _, _ => fun st st' _ h hl => by
    cases h
    exact hl.resolve_left fun hm => nomatch hm
  | v :: elements, hv, ho, first => by
    have hone : Lights id (id ∈ v.marks) v.chunks
        fun st : StackEmission maxSize => writeJsonValue v st :=
      writeJsonValue_lights id v hv.1 (notin_left ho)
    have hrest : Lights id (id ∈ elementMarks elements) (separated false (elementChunks elements))
        fun st : StackEmission maxSize => streamLoop breaks elements false st :=
      streamLoop_lights id breaks elements hv.2 (notin_right ho) false
    have hputs : Puts (v.plain = true) v.ids v.chunks
        fun st : StackEmission maxSize => writeJsonValue v st := writeJsonValue_puts v hv.1
    have hstep := streamStep_lights breaks first
      (fun first => separated first (elementChunks elements)) _
      (fun first st => streamLoop breaks elements first st) hone hputs hrest
    exact hstep.mono fun hm => List.mem_append.mp hm

theorem nodes_lights (id : Nat) : (nodes : List (NodeInfo × Value)) → ValidNodes nodes →
    id ∉ nodeOmits nodes → ∀ p ∈ nodes, p.1.omitted = false →
      Lights id (id ∈ p.2.marks) p.2.chunks fun st : StackEmission maxSize => writeJsonValue p.2 st
  | [], _, _ => fun p hp => nomatch hp
  | (n, v) :: nodes, hv, homit => by
    intro p hp ho
    have hnot := not_mem_nodeOmits _ id homit
    rcases List.mem_cons.mp hp with rfl | hp
    · exact writeJsonValue_lights id v hv.1 ((hnot (n, v) (by simp)).2 ho)
    · exact nodes_lights id nodes hv.2 (notin_right homit) p hp ho
end

end value

end Espbase.StackJson
