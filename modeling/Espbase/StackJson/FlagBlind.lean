import Espbase.StackJson.Flags

namespace Espbase.StackJson

open Espbase.Lib

theorem Option.rel_bind {α β γ δ : Type} {r : α → β → Prop} {s : γ → δ → Prop} {x : Option α}
    {y : Option β} {f : α → Option γ} {g : β → Option δ} (h : Option.Rel r x y)
    (hk : ∀ a b, r a b → Option.Rel s (f a) (g b)) : Option.Rel s (x.bind f) (y.bind g) := by
  cases h with
  | some hab => exact hk _ _ hab
  | none => exact Option.Rel.none

variable {σ : Type}

/-- The same buffer, and the same flags of `ids`. -/
def Agree (ids : List Nat) (a b : Emission σ) : Prop :=
  a.buf = b.buf ∧ ∀ id ∈ ids, a.emitted id = b.emitted id

/-- Agreement of two results together with what they report. -/
def Alike {α : Type} (ids : List Nat) : Option (Emission σ × α) → Option (Emission σ × α) → Prop :=
  Option.Rel fun x y => Agree ids x.1 y.1 ∧ x.2 = y.2

/-- What the emission does depends on the buffer and the flags of `ids` only. -/
def Blind {α : Type} (ids : List Nat) (e : Emission σ → Option (Emission σ × α)) : Prop :=
  ∀ a b, Agree ids a b → Alike ids (e a) (e b)

/-- The same for an emission through void calls. -/
def PutBlind (ids : List Nat) (e : Emission σ → Option (Emission σ)) : Prop :=
  ∀ a b, Agree ids a b → Option.Rel (Agree ids) (e a) (e b)

section Blind
variable {ids ids' : List Nat}

theorem Agree.mono {a b : Emission σ} (h : Agree ids a b) (hi : ids' ⊆ ids) : Agree ids' a b :=
  ⟨h.1, fun id hid => h.2 id (hi hid)⟩

theorem Alike.mono {α : Type} {r r' : Option (Emission σ × α)} (h : Alike ids r r')
    (hi : ids' ⊆ ids) : Alike ids' r r' := by
  cases h with
  | some hxy => exact Option.Rel.some ⟨hxy.1.mono hi, hxy.2⟩
  | none => exact Option.Rel.none

/-- The buffers and what is reported are the same. -/
theorem Alike.observe {α : Type} {r r' : Option (Emission σ × α)} (h : Alike ids r r') :
    (r.map fun x => (x.1.buf, x.2)) = r'.map fun x => (x.1.buf, x.2) := by
  cases h with
  | some hxy => simp [hxy.1.1, hxy.2]
  | none => rfl

theorem Agree.setEmitted {a b : Emission σ} (h : Agree ids a b) (i : Nat) (value : Bool) :
    Agree ids (a.setEmitted i value) (b.setEmitted i value) := by
  refine ⟨h.1, ?_⟩
  intro id hid
  simp only [Emission.setEmitted]
  split_ifs
  · rfl
  · exact h.2 id hid

theorem alike_andThen {r r' : Option (Emission σ × Bool)}
    {k k' : Emission σ → Option (Emission σ × Bool)} (h : Alike ids r r')
    (hk : ∀ s t, r = some (s, true) → r' = some (t, true) → Agree ids s t →
      Alike ids (k s) (k' t)) : Alike ids (StackJson.andThen r k) (StackJson.andThen r' k') := by
  cases h with
  | none => exact Option.Rel.none
  | @some x y hxy =>
    obtain ⟨s, ok⟩ := x
    obtain ⟨t, ok'⟩ := y
    obtain ⟨hst, hok⟩ := hxy
    dsimp only at hst hok
    subst hok
    cases ok with
    | false => exact Option.Rel.some ⟨hst, rfl⟩
    | true => exact hk s t rfl rfl hst

theorem Blind.andThen {e k : Emission σ → Option (Emission σ × Bool)} (he : Blind ids e)
    (hk : Blind ids k) : Blind ids fun st => StackJson.andThen (e st) k :=
  fun a b h => alike_andThen (he a b h) fun s t _ _ hst => hk s t hst

theorem PutBlind.bind {e k : Emission σ → Option (Emission σ)} (he : PutBlind ids e)
    (hk : PutBlind ids k) : PutBlind ids fun st => (e st).bind k :=
  fun a b h => Option.rel_bind (he a b h) hk

theorem Blind.drop {α : Type} {e : Emission σ → Option (Emission σ × α)} (he : Blind ids e) :
    PutBlind ids fun st => (e st).bind fun x => some x.1 :=
  fun a b h => Option.rel_bind (he a b h) fun _ _ hxy => Option.Rel.some hxy.1

theorem PutBlind.call {α : Type} {e : Emission σ → Option (Emission σ)} (he : PutBlind ids e)
    (f : Emission σ → α) (hf : ∀ a b, Agree ids a b → f a = f b) :
    Blind ids fun st => (e st).bind fun st => some (st, f st) :=
  fun a b h => Option.rel_bind (he a b h) fun x y hxy => Option.Rel.some ⟨hxy, hf x y hxy⟩

/-- An operation of the buffer. -/
theorem blind_buffer {α β : Type} (g : σ → Option (σ × α)) (f : α → β) :
    Blind ids fun st : Emission σ =>
      (g st.buf).bind fun r => some ({ st with buf := r.1 }, f r.2) := by
  intro a b h
  dsimp only
  rw [h.1]
  cases g b.buf with
  | none => exact Option.Rel.none
  | some r => exact Option.Rel.some ⟨⟨rfl, h.2⟩, rfl⟩

theorem blind_stop {α : Type} (x : α) : Blind ids fun st : Emission σ => some (st, x) :=
  fun _ _ h => Option.Rel.some ⟨h, rfl⟩

theorem callEmitValue_blind (n : NodeBase σ) (hn : PutBlind ids n.emitValue) :
    Blind ids (callEmitValue n) := hn.call (fun _ => true) fun _ _ _ => rfl

theorem key_blind (key : Option Bytes) (k : Bytes → Emission σ → Option (Emission σ × Bool))
    (hk : ∀ key, Blind ids (k key)) : Blind ids fun st => key.bind fun key => k key st := by
  intro a b h
  cases key with
  | none => exact Option.Rel.none
  | some s => exact hk s a b h

end Blind

/-- After the reset the flags of the nodes agree, whatever they were. -/
theorem resetAll_agree (nodes : List (NodeBase σ)) (ids : List Nat) (a b : Emission σ)
    (h : Agree ids a b) :
    Agree (ids ++ nodes.map fun n => n.id) (resetAll nodes a) (resetAll nodes b) := by
  refine ⟨by rw [resetAll_buf, resetAll_buf, h.1], ?_⟩
  intro id hid
  rw [resetAll_emitted, resetAll_emitted]
  split_ifs with hn
  · rfl
  · exact h.2 id ((List.mem_append.mp hid).resolve_right hn)

section document
variable [Buffer σ] {ids : List Nat}

theorem write_blind (str : Bytes) : Blind ids fun st : Emission σ => st.write str :=
  blind_buffer (fun b => Buffer.write b str) (fun n => n != 0)

theorem writeEscaped_blind (str : Bytes) : Blind ids fun st : Emission σ => st.writeEscaped str :=
  blind_buffer (fun b => StackJson.writeEscaped b str) (fun n => n != 0)

theorem separator_blind (first : Bool) : Blind ids fun st : Emission σ => separator first st := by
  cases first
  · exact write_blind [ch ',']
  · exact blind_stop true

theorem emitMember_blind (recurse : PathBase → Emission σ → Option (Emission σ × Bool)) (c : Nat)
    (n : NodeBase σ) (first : Bool) (hr : ∀ path, Blind ids (recurse path))
    (hn : PutBlind ids n.emitValue) : Blind ids (emitMember recurse c n first) := by
  refine (separator_blind first).andThen (key_blind _ _ ?_)
  intro key
  refine (writeEscaped_blind key).andThen ((write_blind _).andThen ?_)
  split_ifs
  · exact callEmitValue_blind n hn
  · exact (write_blind _).andThen ((hr _).andThen (write_blind _))

theorem emitLoop_blind (recurse : PathBase → Emission σ → Option (Emission σ × Bool))
    (currentPath : PathBase) (nodes : List (NodeBase σ)) (first : Bool)
    (hids : ∀ n ∈ nodes, n.id ∈ ids) (hr : ∀ path, Blind ids (recurse path))
    (hn : ∀ n ∈ nodes, PutBlind ids n.emitValue) :
    Blind ids (emitLoop recurse currentPath nodes first) := by
  induction nodes generalizing first with
  | nil => exact blind_stop true
  | cons n nodes ih =>
    have ih (first) := ih first (fun m hm => hids m (by simp [hm])) fun m hm => hn m (by simp [hm])
    intro a b h
    have hflag := h.2 n.id (hids n (by simp))
    rw [emitLoop, emitLoop, hflag]
    split_ifs
    · exact ih first a b h
    · exact ih first a b h
    · exact (emitMember_blind recurse _ n first hr (hn n (by simp))).andThen (ih false) a b h

theorem emitLevel_blind (nodes : List (NodeBase σ)) (fuel : Nat) (currentPath : PathBase)
    (hids : ∀ n ∈ nodes, n.id ∈ ids) (hn : ∀ n ∈ nodes, PutBlind ids n.emitValue) :
    Blind ids (emitLevel nodes fuel currentPath) := by
  induction fuel generalizing currentPath with
  | zero => exact fun _ _ _ => Option.Rel.none
  | succ fuel ih => exact emitLoop_blind _ currentPath nodes true hids ih hn

theorem flatLoop_blind (nodes : List (NodeBase σ)) (first : Bool)
    (hn : ∀ n ∈ nodes, PutBlind ids n.emitValue) : Blind ids (flatLoop nodes first) := by
  induction nodes generalizing first with
  | nil => exact blind_stop true
  | cons n nodes ih =>
    have ih (first) := ih first fun m hm => hn m (by simp [hm])
    intro a b h
    rw [flatLoop, flatLoop]
    split_ifs
    · exact ih first a b h
    · refine (separator_blind first).andThen (key_blind _ _ ?_) a b h
      intro key
      exact (writeEscaped_blind key).andThen
        ((write_blind _).andThen ((callEmitValue_blind n (hn n (by simp))).andThen (ih false)))

theorem emitBraced_blind (inner : Emission σ → Option (Emission σ × Bool)) (hi : Blind ids inner) :
    Blind ids (emitBraced inner) := (write_blind _).andThen (hi.andThen (write_blind _))

theorem written_alike (before : Nat) (r r' : Option (Emission σ × Bool)) (h : Alike ids r r') :
    Alike ids (written before r) (written before r') := by
  refine Option.rel_bind h fun x y hxy => Option.Rel.some ⟨hxy.1, ?_⟩
  dsimp only
  rw [hxy.1.1, hxy.2]

/-- Emission of nodes does not depend on any flags: those it looks at it has reset before. -/
theorem emitJsonNodes_blind (nodes : List (NodeBase σ))
    (hn : ∀ n ∈ nodes, ∀ ids, PutBlind ids n.emitValue) (ids : List Nat) :
    Blind ids (emitJsonNodes nodes) := by
  intro a b h
  have hbefore : Buffer.length a.buf = Buffer.length b.buf := by rw [h.1]
  unfold emitJsonNodes
  dsimp only
  rw [hbefore]
  split_ifs
  · exact blind_buffer (fun b => Buffer.write b [ch '{', ch '}']) id a b h
  · have hreset := resetAll_agree nodes ids a b h
    have hrun : Alike (ids ++ nodes.map fun n => n.id)
        (emitBraced (emitLevel nodes (maxDepth nodes) []) (resetAll nodes a))
        (emitBraced (emitLevel nodes (maxDepth nodes) []) (resetAll nodes b)) := by
      apply emitBraced_blind _ _ _ _ hreset
      apply emitLevel_blind
      · exact fun n hm => List.mem_append_right _ (List.mem_map.mpr ⟨n, hm, rfl⟩)
      · exact fun n hm => hn n hm _
    exact written_alike _ _ _ (hrun.mono (List.subset_append_left _ _))
  · exact written_alike _ _ _ (emitBraced_blind _ (flatLoop_blind nodes true fun n hm => hn n hm ids)
      a b h)

end document

section value
variable [Buffer σ] {ids : List Nat}

theorem put_blind (str : Bytes) : PutBlind ids fun st : Emission σ => st.put str :=
  (write_blind str).drop

theorem putEscaped_blind (str : Bytes) : PutBlind ids fun st : Emission σ => st.putEscaped str :=
  (writeEscaped_blind str).drop

theorem putInteger_blind (n : Integer) : PutBlind ids fun st : Emission σ => st.putInteger n := by
  intro a b h
  simp only [Emission.putInteger]
  rw [h.1]
  cases writeInteger b.buf n with
  | none => exact Option.Rel.none
  | some buf => exact Option.Rel.some ⟨rfl, h.2⟩

theorem putSeparator_blind (first : Bool) :
    PutBlind ids fun st : Emission σ => putSeparator first st := by
  cases first
  · exact put_blind [ch ',']
  · exact fun _ _ h => Option.Rel.some h

theorem printLoop_blind (texts : List Bytes) :
    PutBlind ids fun st : Emission σ => printLoop texts st := by
  induction texts with
  | nil => exact fun _ _ h => Option.Rel.some h
  | cons text texts ih =>
    intro a b h
    simp only [printLoop]
    rw [h.1]
    cases vprint true (some text) b.buf with
    | none => exact Option.Rel.none
    | some r => exact ih { a with buf := r.1 } { b with buf := r.1 } ⟨rfl, h.2⟩

theorem bracket_blind (l r : Bytes) (e : Emission σ → Option (Emission σ)) (he : PutBlind ids e) :
    PutBlind ids fun st => (st.put l).bind fun st => (e st).bind fun st => st.put r :=
  (put_blind l).bind (he.bind (put_blind r))

theorem emitElement_blind (e : Emission σ → Option (Emission σ)) (first : Bool)
    (he : PutBlind ids e) : Blind ids (emitElement e first) := by
  intro a b h
  unfold emitElement
  rw [h.1]
  split_ifs
  · exact Option.Rel.some ⟨h, rfl⟩
  · apply Option.rel_bind (separator_blind first a b h)
    intro x y hxy
    obtain ⟨hst, hok⟩ := hxy
    dsimp only
    rw [hok]
    split_ifs
    · exact he.call (fun st => (false, !Buffer.bad st.buf)) (fun s t h => by rw [h.1]) _ _ hst
    · exact Option.Rel.some ⟨hst, rfl⟩

mutual
/-- No value looks at flags set before it. -/
theorem writeJsonValue_blind : (v : Value) → (ids : List Nat) →
    PutBlind ids fun st : Emission σ => writeJsonValue v st
  | .null, _ => put_blind _
  | .bool _, _ => put_blind _
  | .int value, _ => putInteger_blind value
  | .str value, _ => putEscaped_blind value
  | .cstr none, _ => put_blind _
  | .cstr (some _), _ => putEscaped_blind _
  | .stackArray elements, ids => bracket_blind _ _ _ (elementLoop_blind elements true ids)
  | .spanArray elements, ids => bracket_blind _ _ _ (elementLoop_blind elements true ids)
  | .streamArray breaks elements, ids =>
    bracket_blind _ _ _ (streamLoop_blind breaks elements true ids)
  | .print texts, _ => bracket_blind _ _ _ (printLoop_blind texts)
  | .doc nodes, ids => (emitJsonNodes_blind (valueNodes nodes) (valueNodes_blind nodes) ids).drop

theorem elementLoop_blind : (elements : List Value) → (first : Bool) → (ids : List Nat) →
    PutBlind ids fun st : Emission σ => elementLoop elements first st
  | [], _, _ => fun _ _ h => Option.Rel.some h
  | v :: elements, first, ids =>
    (putSeparator_blind first).bind ((writeJsonValue_blind v ids).bind
      (elementLoop_blind elements false ids))

theorem streamLoop_blind (breaks : Bool) : (elements : List Value) → (first : Bool) →
    (ids : List Nat) → PutBlind ids fun st : Emission σ => streamLoop breaks elements first st
  | [], _, _ => fun _ _ h => Option.Rel.some h
  | v :: elements, first, ids => by
    intro a b h
    refine Option.rel_bind (emitElement_blind _ first (writeJsonValue_blind v ids) a b h) ?_
    rintro ⟨s, first1, ok⟩ ⟨t, _, _⟩ ⟨hst, ⟨⟩⟩
    dsimp only
    split_ifs
    · exact Option.Rel.some hst
    · exact streamLoop_blind breaks elements first1 ids s t hst

theorem valueNodes_blind : (nodes : List (NodeInfo × Value)) →
    ∀ n ∈ valueNodes (σ := σ) nodes, ∀ ids, PutBlind ids n.emitValue
  | [] => by simp [valueNodes]
  | (n, v) :: nodes => by
    intro m hm ids
    rcases List.mem_cons.mp hm with rfl | hm
    · exact (writeJsonValue_blind v ids).bind fun a b h =>
        Option.Rel.some (h.setEmitted n.id true)
    · exact valueNodes_blind nodes m hm ids
end

end value

end Espbase.StackJson
