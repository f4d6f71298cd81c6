import Espbase.StackJson.Value
import Espbase.StackJson.Items

namespace Espbase.StackJson

open Espbase.Lib

variable {σ : Type}

/-- What may become of each flag: `R id old new`. -/
structure FlagRule (R : Nat → Bool → Bool → Prop) : Prop where
  refl : ∀ id a, R id a a
  trans : ∀ id a b c, R id a b → R id b c → R id a c

/-- The emission changes each flag as `R` allows. -/
def Moves (R : Nat → Bool → Bool → Prop) (e : Emission σ → Option (Emission σ × Bool)) : Prop :=
  ∀ st st' ok, e st = some (st', ok) → ∀ id, R id (st.emitted id) (st'.emitted id)

/-- The same for an emission through void calls. -/
def PutMoves (R : Nat → Bool → Bool → Prop) (e : Emission σ → Option (Emission σ)) : Prop :=
  ∀ st st', e st = some st' → ∀ id, R id (st.emitted id) (st'.emitted id)

section Moves
variable {R : Nat → Bool → Bool → Prop} (hR : FlagRule R)
include hR

theorem FlagRule.andThen {e k : Emission σ → Option (Emission σ × Bool)} (he : Moves R e)
    (hk : Moves R k) : Moves R fun st => StackJson.andThen (e st) k := by
  intro st st' ok h id
  rcases h1 : e st with _ | ⟨st1, _ | _⟩
  · simp [StackJson.andThen, h1] at h
  · simp only [StackJson.andThen, h1] at h
    cases h
    exact he st st1 false h1 id
  · simp only [StackJson.andThen, h1] at h
    exact hR.trans id _ _ _ (he st st1 true h1 id) (hk st1 st' ok h id)

theorem FlagRule.bind {e k : Emission σ → Option (Emission σ)} (he : PutMoves R e)
    (hk : PutMoves R k) : PutMoves R fun st => (e st).bind k := by
  intro st st' h id
  obtain ⟨st1, h1, h2⟩ := Option.bind_eq_some_iff.mp h
  exact hR.trans id _ _ _ (he st st1 h1 id) (hk st1 st' h2 id)

/-- An emission that changes no flag. -/
theorem FlagRule.same {e : Emission σ → Option (Emission σ × Bool)}
    (h : ∀ st st' ok, e st = some (st', ok) → st'.emitted = st.emitted) : Moves R e := by
  intro st st' ok he id
  rw [h st st' ok he]
  exact hR.refl id _

theorem FlagRule.stop (ok : Bool) : Moves R fun st : Emission σ => some (st, ok) := by
  apply hR.same
  intro st st' ok' h
  cases h
  rfl

theorem FlagRule.set (i : Nat) (value : Bool) (hi : ∀ a, R i a value) :
    PutMoves R fun st : Emission σ => some (st.setEmitted i value) := by
  intro st st' h id
  cases h
  simp only [Emission.setEmitted]
  split_ifs with he
  · rw [he]
    exact hi _
  · exact hR.refl id _

end Moves

section callback
variable {R : Nat → Bool → Bool → Prop}

theorem callEmitValue_moves (n : NodeBase σ) (hn : PutMoves R n.emitValue) :
    Moves R (callEmitValue n) := by
  intro st st' ok h
  obtain ⟨st1, h1, h2⟩ := Option.bind_eq_some_iff.mp h
  cases h2
  exact hn st _ h1

theorem key_moves (key : Option Bytes) (k : Bytes → Emission σ → Option (Emission σ × Bool))
    (hk : ∀ key, Moves R (k key)) : Moves R fun st => key.bind fun key => k key st := by
  intro st st' ok h
  obtain ⟨key, -, h⟩ := Option.bind_eq_some_iff.mp h
  exact hk key st st' ok h

end callback

theorem resetAll_emitted (nodes : List (NodeBase σ)) (st : Emission σ) (id : Nat) :
    (resetAll nodes st).emitted id =
      if id ∈ nodes.map fun n => n.id then false else st.emitted id := by
  unfold resetAll
  induction nodes generalizing st with
  | nil => rfl
  | cons n nodes ih =>
    rw [List.foldl_cons, ih]
    by_cases h : id = n.id <;> by_cases h' : id ∈ nodes.map fun n => n.id <;>
      simp_all [Emission.reset, Emission.setEmitted]

theorem resetAll_buf (nodes : List (NodeBase σ)) (st : Emission σ) :
    (resetAll nodes st).buf = st.buf := by
  unfold resetAll
  induction nodes generalizing st with
  | nil => rfl
  | cons n nodes ih => exact ih _

section document
variable [Buffer σ] {R : Nat → Bool → Bool → Prop} (hR : FlagRule R)
include hR

theorem write_moves (str : Bytes) : Moves R fun st : Emission σ => st.write str :=
  hR.same fun st st' ok h => write_emitted st st' str ok h

theorem writeEscaped_moves (str : Bytes) : Moves R fun st : Emission σ => st.writeEscaped str :=
  hR.same fun st st' ok h => writeEscaped_emitted st st' str ok h

theorem separator_moves (first : Bool) : Moves R fun st : Emission σ => separator first st := by
  cases first
  · exact write_moves hR [ch ',']
  · exact hR.stop true

theorem emitMember_moves (recurse : PathBase → Emission σ → Option (Emission σ × Bool)) (c : Nat)
    (n : NodeBase σ) (first : Bool) (hr : ∀ path, Moves R (recurse path))
    (hn : PutMoves R n.emitValue) : Moves R (emitMember recurse c n first) := by
  refine hR.andThen (separator_moves hR first) (key_moves _ _ ?_)
  intro key
  refine hR.andThen (writeEscaped_moves hR key) (hR.andThen (write_moves hR _) ?_)
  split_ifs
  · exact callEmitValue_moves n hn
  · exact hR.andThen (write_moves hR _) (hR.andThen (hr _) (write_moves hR _))

theorem emitLoop_moves (recurse : PathBase → Emission σ → Option (Emission σ × Bool))
    (currentPath : PathBase) (nodes : List (NodeBase σ)) (first : Bool)
    (hr : ∀ path, Moves R (recurse path))
    (hn : ∀ n ∈ nodes, n.omitted = false → PutMoves R n.emitValue) :
    Moves R (emitLoop recurse currentPath nodes first) := by
  induction nodes generalizing first with
  | nil => exact hR.stop true
  | cons n nodes ih =>
    have ih (first) := ih first fun m hm => hn m (by simp [hm])
    intro st st' ok h
    rw [emitLoop] at h
    split_ifs at h with h1 h2
    · exact ih first st st' ok h
    · exact ih first st st' ok h
    · have hshown : n.omitted = false := by
        cases ho : n.omitted with
        | false => rfl
        | true => simp [ho] at h1
      exact hR.andThen (emitMember_moves hR recurse _ n first hr (hn n (by simp) hshown)) (ih false)
        st st' ok h

theorem emitLevel_moves (nodes : List (NodeBase σ)) (fuel : Nat) (currentPath : PathBase)
    (hn : ∀ n ∈ nodes, n.omitted = false → PutMoves R n.emitValue) :
    Moves R (emitLevel nodes fuel currentPath) := by
  induction fuel generalizing currentPath with
  | zero => exact fun st st' ok h => nomatch h
  | succ fuel ih => exact emitLoop_moves hR _ currentPath nodes true ih hn

theorem flatLoop_moves (nodes : List (NodeBase σ)) (first : Bool)
    (hn : ∀ n ∈ nodes, n.omitted = false → PutMoves R n.emitValue) :
    Moves R (flatLoop nodes first) := by
  induction nodes generalizing first with
  | nil => exact hR.stop true
  | cons n nodes ih =>
    have ih (first) := ih first fun m hm => hn m (by simp [hm])
    intro st st' ok h
    rw [flatLoop] at h
    split_ifs at h with ho
    · exact ih first st st' ok h
    · have hvalue := hn n (by simp) (Bool.not_eq_true _ ▸ ho)
      refine hR.andThen (separator_moves hR first) (key_moves _ _ ?_) st st' ok h
      intro key
      exact hR.andThen (writeEscaped_moves hR key) (hR.andThen (write_moves hR _)
        (hR.andThen (callEmitValue_moves n hvalue) (ih false)))

/-- Emitting nodes resets their flags and sets those of the non-omitted ones, beside what their
values do. -/
theorem emitJsonNodes_moves (nodes : List (NodeBase σ)) (hreset : ∀ n ∈ nodes, ∀ a, R n.id a false)
    (hn : ∀ n ∈ nodes, n.omitted = false → PutMoves R n.emitValue) :
    PutMoves R fun st => (emitJsonNodes nodes st).map Prod.fst := by
  intro st st' h id
  have braced (inner : Emission σ → Option (Emission σ × Bool)) (hi : Moves R inner) :
      Moves R (emitBraced inner) :=
    hR.andThen (write_moves hR _) (hR.andThen hi (write_moves hR _))
  have finish (before : Nat) (e : Emission σ → Option (Emission σ × Bool)) (he : Moves R e)
      (st0 : Emission σ) (h : (written before (e st0)).map Prod.fst = some st') :
      R id (st0.emitted id) (st'.emitted id) := by
    obtain ⟨⟨st1, n⟩, h1, rfl⟩ := Option.map_eq_some_iff.mp h
    obtain ⟨⟨st2, ok⟩, h2, h3⟩ := Option.bind_eq_some_iff.mp h1
    cases h3
    exact he st0 _ _ h2 id
  unfold emitJsonNodes at h
  split_ifs at h
  · obtain ⟨⟨st1, n⟩, h1, rfl⟩ := Option.map_eq_some_iff.mp h
    obtain ⟨⟨buf, n⟩, -, h2⟩ := Option.bind_eq_some_iff.mp h1
    cases h2
    exact hR.refl id _
  · refine hR.trans id _ _ _ ?_ (finish _ _ (braced _ (emitLevel_moves hR nodes _ [] hn)) _ h)
    rw [resetAll_emitted]
    split_ifs with hm
    · obtain ⟨n, hnm, rfl⟩ := List.mem_map.mp hm
      exact hreset n hnm _
    · exact hR.refl id _
  · exact finish _ _ (braced _ (flatLoop_moves hR nodes true hn)) st h

end document

section value
variable [Buffer σ] {R : Nat → Bool → Bool → Prop} (hR : FlagRule R)
include hR

theorem put_moves (str : Bytes) : PutMoves R fun st : Emission σ => st.put str := by
  intro st st' h
  obtain ⟨⟨st1, ok⟩, h1, h2⟩ := Option.bind_eq_some_iff.mp h
  cases h2
  exact write_moves hR str st _ ok h1

theorem putEscaped_moves (str : Bytes) : PutMoves R fun st : Emission σ => st.putEscaped str := by
  intro st st' h
  obtain ⟨⟨st1, ok⟩, h1, h2⟩ := Option.bind_eq_some_iff.mp h
  cases h2
  exact writeEscaped_moves hR str st _ ok h1

theorem putInteger_moves (n : Integer) : PutMoves R fun st : Emission σ => st.putInteger n := by
  intro st st' h id
  obtain ⟨buf, -, h2⟩ := Option.bind_eq_some_iff.mp h
  cases h2
  exact hR.refl id _

theorem putSeparator_moves (first : Bool) :
    PutMoves R fun st : Emission σ => putSeparator first st := by
  cases first
  · exact put_moves hR [ch ',']
  · intro st st' h id
    cases h
    exact hR.refl id _

theorem printLoop_moves (texts : List Bytes) :
    PutMoves R fun st : Emission σ => printLoop texts st := by
  induction texts with
  | nil =>
    intro st st' h id
    cases h
    exact hR.refl id _
  | cons text texts ih =>
    intro st st' h
    obtain ⟨⟨buf, n⟩, -, h2⟩ := Option.bind_eq_some_iff.mp h
    exact ih { st with buf := buf } st' h2

theorem emitElement_moves (e : Emission σ → Option (Emission σ)) (first : Bool)
    (he : PutMoves R e) : PutMoves R fun st => (emitElement e first st).map Prod.fst := by
  intro st st' h id
  obtain ⟨⟨st1, first1, ok1⟩, h1, rfl⟩ := Option.map_eq_some_iff.mp h
  unfold emitElement at h1
  split_ifs at h1
  · cases h1
    exact hR.refl id _
  · obtain ⟨⟨st2, ok2⟩, h2, h3⟩ := Option.bind_eq_some_iff.mp h1
    have hsep := separator_moves hR first st st2 ok2 h2 id
    cases ok2 with
    | false =>
      cases h3
      exact hsep
    | true =>
      obtain ⟨st3, hwrite, hres⟩ := Option.bind_eq_some_iff.mp h3
      cases hres
      exact hR.trans id _ _ _ hsep (he st2 _ hwrite id)

theorem bracket_moves (l r : Bytes) (e : Emission σ → Option (Emission σ)) (he : PutMoves R e) :
    PutMoves R fun st => (st.put l).bind fun st => (e st).bind fun st => st.put r :=
  hR.bind (put_moves hR l) (hR.bind he (put_moves hR r))

end value

mutual
/-- The identities of the nodes inside a value. -/
def Value.ids : Value → List Nat
  | .stackArray elements => elementIds elements
  | .spanArray elements => elementIds elements
  | .streamArray _ elements => elementIds elements
  | .doc nodes => nodeIds nodes
  | _ => []

def elementIds : List Value → List Nat
  | [] => []
  | v :: elements => v.ids ++ elementIds elements

def nodeIds : List (NodeInfo × Value) → List Nat
  | [] => []
  | (n, v) :: nodes => n.id :: (v.ids ++ nodeIds nodes)
end

mutual
/-- The nodes that are emitted with a value. -/
def Value.marks : Value → List Nat
  | .stackArray elements => elementMarks elements
  | .spanArray elements => elementMarks elements
  | .streamArray _ elements => elementMarks elements
  | .doc nodes => nodeMarks nodes
  | _ => []

def elementMarks : List Value → List Nat
  | [] => []
  | v :: elements => v.marks ++ elementMarks elements

def nodeMarks : List (NodeInfo × Value) → List Nat
  | [] => []
  | (n, v) :: nodes => (if n.omitted then [] else n.id :: v.marks) ++ nodeMarks nodes
end

mutual
theorem Value.marks_subset : (v : Value) → v.marks ⊆ v.ids
  | .stackArray elements => elementMarks_subset elements
  | .spanArray elements => elementMarks_subset elements
  | .streamArray _ elements => elementMarks_subset elements
  | .doc nodes => nodeMarks_subset nodes
  | .null => List.Subset.refl _
  | .bool _ => List.Subset.refl _
  | .int _ => List.Subset.refl _
  | .str _ => List.Subset.refl _
  | .cstr _ => List.Subset.refl _
  | .print _ => List.Subset.refl _

theorem elementMarks_subset : (elements : List Value) → elementMarks elements ⊆ elementIds elements
  | [] => List.Subset.refl _
  | v :: elements =>
    List.append_subset.mpr ⟨fun _ h => List.mem_append_left _ (v.marks_subset h),
      fun _ h => List.mem_append_right _ (elementMarks_subset elements h)⟩

theorem nodeMarks_subset : (nodes : List (NodeInfo × Value)) → nodeMarks nodes ⊆ nodeIds nodes
  | [] => List.Subset.refl _
  | (n, v) :: nodes => by
    have hv := v.marks_subset
    have hrest := nodeMarks_subset nodes
    intro i hi
    simp only [nodeMarks, nodeIds, List.mem_append, List.mem_cons] at hi ⊢
    split_ifs at hi with ho
    · rcases hi with hi | hi
      · cases hi
      · exact .inr (.inr (hrest hi))
    · rcases hi with hi | hi
      · exact (List.mem_cons.mp hi).imp_right fun hi => .inl (hv hi)
      · exact .inr (.inr (hrest hi))
end

section value
variable [Buffer σ] {R : Nat → Bool → Bool → Prop}

mutual
/-- A value sets the flags of the nodes emitted with it and may reset those of all nodes inside. -/
theorem writeJsonValue_moves (hR : FlagRule R) : (v : Value) → (∀ id ∈ v.marks, ∀ a, R id a true) →
    (∀ id ∈ v.ids, ∀ a, R id a false) → PutMoves R fun st : Emission σ => writeJsonValue v st
  | .null, _, _ => put_moves hR _
  | .bool _, _, _ => put_moves hR _
  | .int value, _, _ => putInteger_moves hR value
  | .str value, _, _ => putEscaped_moves hR value
  | .cstr none, _, _ => put_moves hR _
  | .cstr (some _), _, _ => putEscaped_moves hR _
  | .stackArray elements, hs, hr =>
    bracket_moves hR _ _ _ (elementLoop_moves hR elements true hs hr)
  | .spanArray elements, hs, hr =>
    bracket_moves hR _ _ _ (elementLoop_moves hR elements true hs hr)
  | .streamArray breaks elements, hs, hr =>
    bracket_moves hR _ _ _ (streamLoop_moves hR breaks elements true hs hr)
  | .print texts, _, _ => bracket_moves hR _ _ _ (printLoop_moves hR texts)
  | .doc nodes, hs, hr => by
    obtain ⟨hreset, hn⟩ := valueNodes_moves hR nodes hs hr
    intro st st' h
    obtain ⟨⟨st1, n⟩, h1, h2⟩ := Option.bind_eq_some_iff.mp h
    cases h2
    exact emitJsonNodes_moves hR (valueNodes nodes) hreset hn st _
      (Option.map_eq_some_iff.mpr ⟨_, h1, rfl⟩)

theorem elementLoop_moves (hR : FlagRule R) : (elements : List Value) → (first : Bool) →
    (∀ id ∈ elementMarks elements, ∀ a, R id a true) →
    (∀ id ∈ elementIds elements, ∀ a, R id a false) →
    PutMoves R fun st : Emission σ => elementLoop elements first st
  | [], _, _, _ => fun st st' h id => by
    cases h
    exact hR.refl id _
  | v :: elements, first, hs, hr =>
    hR.bind (putSeparator_moves hR first)
      (hR.bind (writeJsonValue_moves hR v (fun i hi => hs i (List.mem_append_left _ hi))
          (fun i hi => hr i (List.mem_append_left _ hi)))
        (elementLoop_moves hR elements false (fun i hi => hs i (List.mem_append_right _ hi))
          (fun i hi => hr i (List.mem_append_right _ hi))))

theorem streamLoop_moves (hR : FlagRule R) (breaks : Bool) : (elements : List Value) →
    (first : Bool) → (∀ id ∈ elementMarks elements, ∀ a, R id a true) →
    (∀ id ∈ elementIds elements, ∀ a, R id a false) →
    PutMoves R fun st : Emission σ => streamLoop breaks elements first st
  | [], _, _, _ => fun st st' h id => by
    cases h
    exact hR.refl id _
  | v :: elements, first, hs, hr => by
    intro st st' h id
    have hv : PutMoves R fun st : Emission σ => writeJsonValue v st :=
      writeJsonValue_moves hR v (fun i hi => hs i (List.mem_append_left _ hi))
        (fun i hi => hr i (List.mem_append_left _ hi))
    obtain ⟨⟨st1, first1, ok⟩, h1, h⟩ := Option.bind_eq_some_iff.mp h
    have hone := emitElement_moves hR _ first hv st st1
      (Option.map_eq_some_iff.mpr ⟨_, h1, rfl⟩) id
    dsimp only at h
    split_ifs at h
    · cases h
      exact hone
    · exact hR.trans id _ _ _ hone (streamLoop_moves hR breaks elements first1
        (fun i hi => hs i (List.mem_append_right _ hi))
        (fun i hi => hr i (List.mem_append_right _ hi)) st1 st' h id)

theorem valueNodes_moves (hR : FlagRule R) : (nodes : List (NodeInfo × Value)) →
    (∀ id ∈ nodeMarks nodes, ∀ a, R id a true) → (∀ id ∈ nodeIds nodes, ∀ a, R id a false) →
    (∀ n ∈ valueNodes (σ := σ) nodes, ∀ a, R n.id a false) ∧
      ∀ n ∈ valueNodes (σ := σ) nodes, n.omitted = false → PutMoves R n.emitValue
  | [], _, _ => ⟨by simp [valueNodes], by simp [valueNodes]⟩
  | (n, v) :: nodes, hs, hr => by
    obtain ⟨hreset, hn⟩ := valueNodes_moves hR nodes
      (fun i hi => hs i (List.mem_append_right _ hi)) (fun i hi => hr i (by simp [nodeIds, hi]))
    refine ⟨?_, ?_⟩
    · intro m hm
      rcases List.mem_cons.mp hm with rfl | hm
      · exact hr n.id (by simp [nodeIds])
      · exact hreset m hm
    · intro m hm ho
      rcases List.mem_cons.mp hm with rfl | hm
      · have ho : n.omitted = false := ho
        have hv : PutMoves R fun st : Emission σ => writeJsonValue v st :=
          writeJsonValue_moves hR v (fun i hi => hs i (by simp [nodeMarks, ho, hi]))
            (fun i hi => hr i (by simp [nodeIds, hi]))
        exact hR.bind hv (hR.set n.id true (hs n.id (by simp [nodeMarks, ho])))
      · exact hn m hm ho
end

/-- Emitting a value leaves the flags of the nodes outside of it. -/
theorem writeJsonValue_touches (v : Value) (st st' : Emission σ) (h : writeJsonValue v st = some st')
    (id : Nat) (hid : id ∉ v.ids) : st'.emitted id = st.emitted id := by
  have hR : FlagRule fun i a b => i ∉ v.ids → b = a :=
    ⟨fun _ _ _ => rfl, fun _ _ _ _ hab hbc hi => (hbc hi).trans (hab hi)⟩
  exact writeJsonValue_moves hR v (fun i hi _ hn => absurd (v.marks_subset hi) hn)
    (fun i hi _ hn => absurd hi hn) st st' h id hid

end value

end Espbase.StackJson
