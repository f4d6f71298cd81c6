import Espbase.StackJson.CompactText

namespace Espbase.StackJson

open Espbase.Lib StackBuffer

/-- Whether the first write of a document that finds too little room belongs to the document itself
(a key or a punctuation mark), or else begins exactly at the end of the room. -/
def cutClean : Nat → List (Item (List Bytes)) → Bool
  | _, [] => true
  | room, it :: its =>
    if it.chunks.flatten.length ≤ room then cutClean (room - it.chunks.flatten.length) its
    else
      match it with
      | .punct _ => true
      | .key _ => true
      | .value ws => (fitted room ws).length == room

/-- Every value is followed by a punctuation mark. -/
def Spaced {α : Type} : List (Item α) → Prop
  | [] => True
  | .value _ :: its => (∃ c rest, its = .punct c :: rest) ∧ Spaced its
  | .punct _ :: its => Spaced its
  | .key _ :: its => Spaced its

section spaced
variable {α : Type}

def StartsWithPunct (its : List (Item α)) : Prop := ∃ c rest, its = .punct c :: rest

theorem startsWithPunct_members (ms : List (Bytes × KeyTree Bytes α)) (c : UInt8)
    (rest : List (Item α)) : StartsWithPunct (memberItems false ms ++ .punct c :: rest) := by
  cases ms with
  | nil => exact ⟨c, rest, rfl⟩
  | cons m ms => exact ⟨ch ',', _, rfl⟩

mutual
theorem treeItems_spaced (rest : List (Item α)) (hrest : Spaced rest) (hp : StartsWithPunct rest) :
    (t : KeyTree Bytes α) → Spaced (treeItems t ++ rest)
  | .leaf _ => ⟨hp, hrest⟩
  | .node ms => by
    have h := memberItems_spaced (.punct (ch '}') :: rest) hrest ⟨_, _, rfl⟩ true ms
    simpa [treeItems, Spaced] using h

theorem memberItems_spaced (rest : List (Item α)) (hrest : Spaced rest) (hp : StartsWithPunct rest)
    (first : Bool) : (ms : List (Bytes × KeyTree Bytes α)) → Spaced (memberItems first ms ++ rest)
  | [] => hrest
  | (k, t) :: ms => by
    have hms := memberItems_spaced rest hrest hp false ms
    have hnext : StartsWithPunct (memberItems false ms ++ rest) := by
      obtain ⟨c, rest, rfl⟩ := hp
      exact startsWithPunct_members ms c rest
    have ht := treeItems_spaced _ hms hnext t
    cases first <;> simpa [memberItems, sepItems, Spaced] using ht
end

/-- The items of an object are spaced. -/
theorem objectItems_spaced (ms : List (Bytes × KeyTree Bytes α)) :
    Spaced (treeItems (.node ms)) := by
  have h := memberItems_spaced [.punct (ch '}')] trivial ⟨_, _, rfl⟩ true ms
  simpa [treeItems, Spaced] using h

end spaced

variable {maxSize : Nat} {ids : List Nat}

/-- A write of the document's own reports its failure. -/
theorem runItem_own_sent (it : Item (NodeBase (StackBuffer maxSize) × List Bytes))
    (hown : ∀ p, it ≠ .value p) (st : StackEmission maxSize) (hw : st.buf.Within)
    (hg : st.buf.bad = false) :
    ∃ st' ok, runItem st (it.map Prod.fst) = some (st', ok) ∧
      Sent st.buf (it.map Prod.snd).chunks st'.buf ok := by
  cases it with
  | punct c =>
    obtain ⟨b', n, he, hs⟩ := write_sent st.buf [c] hw (by simp)
    exact ⟨{ st with buf := b' }, n != 0, by simp [runItem, Item.map, Emission.write, he], hs⟩
  | key k =>
    obtain ⟨b', n, he, hs⟩ := writeEscaped_sent st.buf k hw hg
    exact ⟨{ st with buf := b' }, n != 0, by simp [runItem, Item.map, Emission.writeEscaped, he], hs⟩
  | value p => exact absurd rfl (hown p)

/-- A buffer without room refuses every further mark, and one with room takes it in spite of an
earlier failure. -/
theorem write_mark (st : StackEmission maxSize) (c : UInt8) (hw : st.buf.Within) :
    ∃ st' ok, st.write [c] = some (st', ok) ∧
      (maxSize ≤ st.buf.head ∧ ok = false ∧ st'.buf.view = st.buf.view ∨
        st.buf.head < maxSize ∧ st'.buf.Within ∧ st'.buf.head = st.buf.head + 1) := by
  by_cases h : st.buf.head + 1 ≤ maxSize
  · obtain ⟨b', he, ha⟩ := write_fits st.buf [c] h
    exact ⟨{ st with buf := b' }, true, by simp [Emission.write, he],
      .inr ⟨h, ha.within, ha.head hw⟩⟩
  · exact ⟨{ st with buf := st.buf.fail }, false,
      by simp [Emission.write, write_misfit st.buf [c] (by simp; omega)], .inl ⟨by omega, rfl, rfl⟩⟩

/-- A value that does not fit, and the mark that follows it: the mark is lost as well only when the
value has filled the buffer to the last byte. -/
theorem runItems_cut_value (p : NodeBase (StackBuffer maxSize) × List Bytes) (c : UInt8)
    (its : List (Item (NodeBase (StackBuffer maxSize) × List Bytes)))
    (hp : Puts True ids p.2 p.1.emitValue)
    (hv : ∀ q ∈ itemValues its, Puts True ids q.2 q.1.emitValue)
    (st : StackEmission maxSize) (hw : st.buf.Within) (hg : st.buf.bad = false)
    (hlong : maxSize < st.buf.head + p.2.flatten.length) :
    ∃ st' ok, runItems (.value p.1 :: .punct c :: its.map (Item.map Prod.fst)) st =
        some (st', ok) ∧
      ((ok = false ∧ st'.buf.view = st.buf.view ++ fitted (maxSize - st.buf.head) p.2) ↔
        (fitted (maxSize - st.buf.head) p.2).length = maxSize - st.buf.head) := by
  have hhead : st.buf.head ≤ maxSize := hw
  have hroom := fitted_length_le p.2 (maxSize - st.buf.head)
  obtain ⟨st1, h1, hem⟩ := hp st hw
  obtain ⟨-, hpre⟩ := hem.misfit hg hlong
  have hpre := hpre trivial
  have hw1 : st1.buf.head ≤ maxSize := hem.grows.within
  have hlen1 : st.buf.head + (fitted (maxSize - st.buf.head) p.2).length ≤ st1.buf.head := by
    have := hpre.length_le
    rwa [List.length_append, view_length _ hw, view_length _ hw1] at this
  obtain ⟨st2, ok2, h2, ⟨hfull, rfl, hview⟩ | ⟨hfree, hw2, hhead2⟩⟩ := write_mark st1 c hw1
  · refine ⟨st2, false, by simp [runItems, runItem, callEmitValue, andThen, h1, h2], ?_⟩
    rw [hview]
    constructor
    · rintro ⟨-, heq⟩
      have := congrArg List.length heq
      rw [List.length_append, view_length _ hw, view_length _ hw1] at this
      omega
    · intro hf
      refine ⟨rfl, (hpre.eq_of_length ?_).symm⟩
      rw [List.length_append, view_length _ hw, view_length _ hw1]
      omega
  · have hstep : runItems (.value p.1 :: .punct c :: its.map (Item.map Prod.fst)) st =
        andThen (some (st2, ok2)) (runItems (its.map (Item.map Prod.fst))) := by
      simp [runItems, runItem, callEmitValue, andThen, h1, h2]
    have hgrow : ∃ st3 ok3, runItems (.value p.1 :: .punct c :: its.map (Item.map Prod.fst)) st =
        some (st3, ok3) ∧ st3.buf.Within ∧ st2.buf.head ≤ st3.buf.head := by
      cases ok2 with
      | false => exact ⟨st2, false, hstep, hw2, Nat.le_refl _⟩
      | true =>
        obtain ⟨st3, ok3, h3, hem3⟩ := runItems_emits its hv st2 hw2
        exact ⟨st3, ok3, by rw [hstep]; exact h3, hem3.grows.within, hem3.grows.head hw2⟩
    obtain ⟨st3, ok3, h3, hw3, hle⟩ := hgrow
    refine ⟨st3, ok3, h3, ?_⟩
    constructor
    · rintro ⟨-, heq⟩
      have := congrArg List.length heq
      rw [List.length_append, view_length _ hw, view_length _ hw3] at this
      omega
    · intro hf
      omega

/-- The run of a document whose text is too long: it stops with exactly the writes before the first
that did not fit if and only if that write is its own or begins at the end of the buffer. -/
theorem runItems_cut (its : List (Item (NodeBase (StackBuffer maxSize) × List Bytes)))
    (hspaced : Spaced its)
    (hv : ∀ p ∈ itemValues its, Puts True ids p.2 p.1.emitValue)
    (st : StackEmission maxSize) (hw : st.buf.Within) (hg : st.buf.bad = false)
    (hlong : maxSize < st.buf.head + (itemChunks (its.map (Item.map Prod.snd))).flatten.length) :
    ∃ st' ok, runItems (its.map (Item.map Prod.fst)) st = some (st', ok) ∧
      ((ok = false ∧ st'.buf.view =
          st.buf.view ++ fitted (maxSize - st.buf.head) (itemChunks (its.map (Item.map Prod.snd)))) ↔
        cutClean (maxSize - st.buf.head) (its.map (Item.map Prod.snd)) = true) := by
  induction its generalizing st with
  | nil =>
    simp only [Within] at hw
    simp only [List.map_nil, itemChunks, List.flatMap_nil, List.flatten_nil, List.length_nil] at hlong
    omega
  | cons it its ih =>
    have hhead : st.buf.head ≤ maxSize := hw
    have hspaced' : Spaced its := by
      cases it with
      | punct c => exact hspaced
      | key k => exact hspaced
      | value p => exact hspaced.2
    have hv' : ∀ p ∈ itemValues its, Puts True ids p.2 p.1.emitValue := fun p hp =>
      hv p (by cases it <;> simp [itemValues, hp])
    have hchunks : itemChunks ((it :: its).map (Item.map Prod.snd)) =
        (it.map Prod.snd).chunks ++ itemChunks (its.map (Item.map Prod.snd)) := rfl
    rw [hchunks] at hlong ⊢
    rw [List.flatten_append, List.length_append] at hlong
    simp only [List.map_cons, runItems, cutClean]
    by_cases hfit : st.buf.head + (it.map Prod.snd).chunks.flatten.length ≤ maxSize
    · -- the item fits: the question is passed on
      rw [if_pos (by omega), fitted_append_of_fits _ _ _ (by omega)]
      have hone : Emits True ids _ _ := runItems_emits [it] fun p hp => hv p (by
        cases it <;> simp [itemValues] at hp ⊢
        exact .inl hp)
      obtain ⟨st1, ok1, h1, hem⟩ := hone st hw
      rw [List.map_singleton, runItems_single] at h1
      simp only [List.map_singleton, itemChunks, List.flatMap_singleton] at hem
      obtain ⟨rfl, ha⟩ := hem.fits hg hfit
      have hh := ha.head hw
      obtain ⟨st2, ok2, h2, hiff⟩ := ih hspaced' hv' st1 ha.within (ha.bad.trans hg) (by omega)
      refine ⟨st2, ok2, by simp [andThen, h1, h2], ?_⟩
      rw [← List.append_assoc, ← ha.view, ← Nat.sub_add_eq, ← hh]
      exact hiff
    · rw [if_neg (by omega), fitted_append_of_misfit _ _ _ (by omega)]
      have own (hown : ∀ p, it ≠ .value p) : ∃ st' ok,
          andThen (runItem st (it.map Prod.fst)) (runItems (its.map (Item.map Prod.fst))) =
            some (st', ok) ∧ (ok = false ∧ st'.buf.view =
              st.buf.view ++ fitted (maxSize - st.buf.head) (it.map Prod.snd).chunks) := by
        obtain ⟨st1, ok1, h1, hs⟩ := runItem_own_sent it hown st hw hg
        cases hs with
        | all fits _ => exact absurd fits hfit
        | cut _ ht => exact ⟨st1, false, by simp [andThen, h1], rfl, ht.view⟩
      cases it with
      | punct c =>
        obtain ⟨st', ok, h, hres⟩ := own fun p hp => (by cases hp)
        exact ⟨st', ok, h, by simpa [Item.map] using hres⟩
      | key k =>
        obtain ⟨st', ok, h, hres⟩ := own fun p hp => (by cases hp)
        exact ⟨st', ok, h, by simpa [Item.map] using hres⟩
      | value p =>
        obtain ⟨⟨c, rest, rfl⟩, -⟩ := hspaced
        obtain ⟨st', ok, h, hiff⟩ := runItems_cut_value p c rest (hv p (by simp [itemValues]))
          (fun q hq => hv q (by simp [itemValues, hq])) st hw hg (Nat.lt_of_not_le hfit)
        exact ⟨st', ok, h, by simpa [Item.map, Item.chunks] using hiff⟩

theorem fitted_mark_length (c : UInt8) (ws : List Bytes) (room : Nat) (h : 0 < room) :
    0 < (fitted room ([c] :: ws)).length := by
  rw [fitted, if_pos (show [c].length ≤ room from h), List.length_append]
  exact Nat.lt_of_lt_of_le Nat.one_pos (Nat.le_add_right _ _)

theorem cutClean_objectItems_zero (nodes : List (NodeInfo × List Bytes)) :
    cutClean 0 (objectItems nodes) = true := by
  rw [objectItems, treeItems, cutClean, if_neg (by simp [Item.chunks])]

/-- The cut of a document in an empty buffer, with the result of the emission. -/
theorem emitDocument_cut (nodes : List (NodeInfo × Value)) (hvalid : (Value.doc nodes).Valid)
    (hplain : plainNodes nodes = true) (maxSize : Nat)
    (hlong : maxSize < (documentText nodes).length) (emitted : Nat → Bool) :
    ∃ st' ok, emitDocument nodes ⟨StackBuffer.empty maxSize, emitted⟩ =
        some (st', if ok = true then st'.buf.head else 0) ∧
      (ok = true → 0 < st'.buf.head) ∧
      ((ok = false ∧ st'.buf.view = fitted maxSize (documentChunks nodes)) ↔
        cutClean maxSize (objectItems (nodeChunks nodes)) = true) := by
  have hw : (StackBuffer.empty maxSize).Within := Nat.zero_le _
  have hlong' : maxSize < (StackBuffer.empty maxSize).head + (documentChunks nodes).flatten.length := by
    rw [documentChunks_flatten]
    exact hlong.trans_eq (Nat.zero_add _).symm
  by_cases hne : nodes = []
  · subst hne
    obtain ⟨st', ok, he, -, hs⟩ := emitDocument_nil ⟨StackBuffer.empty maxSize, emitted⟩ hw
    cases hs with
    | all fits _ => exact absurd fits (Nat.not_le_of_lt hlong')
    | cut _ ht =>
      have htrue : cutClean maxSize (objectItems (nodeChunks [])) = true := by
        change cutClean maxSize [.punct (ch '{'), .punct (ch '}')] = true
        simp [cutClean]
      exact ⟨st', false, he, Bool.noConfusion, fun _ => htrue, fun _ => ⟨rfl, ht.view⟩⟩
  · have hpaths : ∀ p ∈ nodes, p.1.path ≠ [] := fun p hp =>
      hvalid.1.paths p.1 (List.mem_map.mpr ⟨p, hp, rfl⟩)
    have hvalues : ∀ p ∈ nodes,
        Puts True (nodeIds nodes) p.2.chunks
          fun st : StackEmission maxSize => writeJsonValue p.2 st :=
      fun p hp => (nodes_puts nodes hvalid.2 p hp).mono (fun _ => hplain) (List.Subset.refl _)
    have hputs := pairTree_puts nodes hpaths hvalues (List.Subset.refl _)
    obtain ⟨⟨buf0, emitted0⟩, hbuf, -, heq⟩ := emitDocument_eq nodes hne hvalid.1
      (List.Subset.refl _) ⟨StackBuffer.empty maxSize, emitted⟩
    subst hbuf
    rw [documentChunks_cons maxSize nodes hne] at hlong'
    obtain ⟨st', ok, he, hiff⟩ := runItems_cut (treeItems (pairTree maxSize nodes))
      (objectItems_spaced _) hputs ⟨StackBuffer.empty maxSize, emitted0⟩ hw rfl hlong'
    obtain ⟨st1, ok1, he1, hem⟩ := runItems_emits (treeItems (pairTree maxSize nodes)) hputs
      ⟨StackBuffer.empty maxSize, emitted0⟩ hw
    obtain ⟨rfl, rfl⟩ := Prod.mk.inj (Option.some.inj (he1.symm.trans he))
    have hview0 : (StackBuffer.empty maxSize).view = [] := rfl
    have hroom : maxSize - (StackBuffer.empty maxSize).head = maxSize := Nat.sub_zero _
    rw [← documentChunks_cons maxSize nodes hne] at hlong' hiff hem
    simp only [hview0, hroom, List.nil_append, pairTree_snd] at hiff
    refine ⟨st1, ok1, ?_, ?_, hiff⟩
    · rw [heq, he]
      rfl
    · intro hok
      have hmark : documentChunks nodes = [ch '{'] :: (documentChunks nodes).tail := by
        rw [documentChunks_cons maxSize nodes hne]
        rfl
      rcases Nat.eq_zero_or_pos maxSize with h0 | hpos
      · have hfalse := (hiff.mpr (by rw [h0]; exact cutClean_objectItems_zero _)).1
        rw [hfalse] at hok
        cases hok
      · have hp := ((hem.misfit rfl hlong').2 trivial).length_le
        rw [hview0, hroom, List.nil_append, view_length _ hem.grows.within, hmark] at hp
        exact (fitted_mark_length _ _ _ hpos).trans_le hp

/-- A document without print callbacks that is too long for the buffer: the emission returns 0 and
leaves exactly the writes before the first that did not fit, a prefix of the compact text, if and only
if that write is a key or a mark of the document itself or begins at the end of the buffer. -/
theorem emitDocument_overflow (nodes : List (NodeInfo × Value)) (hvalid : (Value.doc nodes).Valid)
    (hplain : plainNodes nodes = true) (maxSize : Nat)
    (hlong : maxSize < (documentText nodes).length) (emitted : Nat → Bool) :
    (∃ st', emitDocument nodes ⟨StackBuffer.empty maxSize, emitted⟩ = some (st', 0) ∧
        st'.buf.view <+: documentText nodes ∧
        st'.buf.view = fitted maxSize (documentChunks nodes)) ↔
      cutClean maxSize (objectItems (nodeChunks nodes)) = true := by
  obtain ⟨st', ok, he, hpos, hiff⟩ := emitDocument_cut nodes hvalid hplain maxSize hlong emitted
  rw [← hiff]
  constructor
  · rintro ⟨st1, h1, -, hv⟩
    rw [he] at h1
    obtain ⟨rfl, hn⟩ := Prod.mk.inj (Option.some.inj h1)
    cases ok with
    | false => exact ⟨rfl, hv⟩
    | true => exact absurd hn (Nat.pos_iff_ne_zero.mp (hpos rfl))
  · rintro ⟨rfl, hv⟩
    refine ⟨st', he, ?_, hv⟩
    rw [hv, ← documentChunks_flatten]
    exact fitted_prefix _ _

/-- One member whose string is longer than the buffer that it is written to. -/
def longString : List (NodeInfo × Value) :=
  [(⟨0, false, [bytes "a"]⟩, .str (bytes "long string"))]

theorem longString_valid : (Value.doc longString).Valid :=
  ⟨⟨by decide, by decide, by decide, by decide⟩, trivial, trivial⟩

theorem emitDocument_overflow_longString :
    ∃ st' : Emission (StackBuffer 3),
      emitDocument longString ⟨StackBuffer.empty 3, fun _ => false⟩ = some (st', 0) ∧
        st'.buf.view <+: documentText longString ∧
        st'.buf.view = fitted 3 (documentChunks longString) :=
  (emitDocument_overflow longString longString_valid rfl 3 (by decide) _).mpr (by decide)

/-- The closing brace follows the opening quote of the string that was cut, and the result counts
it. -/
theorem emitDocument_longString_brace :
    8 < (documentText longString).length ∧
    (emitDocument longString ⟨StackBuffer.empty 8, fun _ => false⟩).map
        (fun r => (r.1.buf.view, r.2)) = some (bytes "\x7b\"a\":\"\x7d", 7) ∧
      ¬ bytes "\x7b\"a\":\"\x7d" <+: documentText longString := by
  refine ⟨by decide, by decide +kernel, by decide⟩

end Espbase.StackJson
