import Espbase.StackJson.PrettyRefused

namespace Espbase.StackJson

open Espbase.Lib StackBuffer PrettyBuffer

section solid

mutual
/-- Compact texts have no whitespace outside of string literals. -/
theorem Value.solid : (v : Value) → v.Valid → Solid v.text
  | .null, _ => ⟨rfl, rfl⟩
  | .bool value, _ => by cases value <;> exact ⟨rfl, rfl⟩
  | .int value, _ => Solid.of_forall fun c hc => ⟨(signedDecimal_marks _ c hc).2, fun hq => by
    have := (signedDecimal_marks _ c hc).1
    rw [hq] at this
    cases this⟩
  | .str value, _ => Solid.stringLiteral value
  | .cstr none, _ => ⟨rfl, rfl⟩
  | .cstr (some value), _ => Solid.stringLiteral _
  | .stackArray elements, h => Solid.arrayText (elementTexts_solid elements h)
  | .spanArray elements, h => Solid.arrayText (elementTexts_solid elements h)
  | .streamArray _ elements, h => Solid.arrayText (elementTexts_solid elements h)
  | .print texts, _ => Solid.stringLiteral _
  | .doc nodes, h => by
    have hpaths : ∀ p ∈ nodes, p.1.path ≠ [] := fun p hp =>
      h.1.paths p.1 (List.mem_map.mpr ⟨p, hp, rfl⟩)
    change Solid (documentText nodes)
    rw [documentText_eq]
    apply Solid.treeText Value.text (.node (documentTree nodes))
    intro v hv
    rw [KeyTree.leaves, (documentTree_leaves nodes hpaths).mem_iff] at hv
    obtain ⟨p, hp, rfl⟩ := List.mem_map.mp hv
    exact nodeTexts_solid nodes h.2 p (List.mem_of_mem_filter hp)

theorem elementTexts_solid : (elements : List Value) → ValidElements elements →
    ∀ w ∈ elementTexts elements, Solid w
  | [], _ => by simp [elementTexts]
  | v :: elements, h => by
    intro w hw
    rcases List.mem_cons.mp hw with rfl | hw
    · exact v.solid h.1
    · exact elementTexts_solid elements h.2 w hw

theorem nodeTexts_solid : (nodes : List (NodeInfo × Value)) → ValidNodes nodes →
    ∀ p ∈ nodes, Solid p.2.text
  | [], _ => by simp
  | (n, v) :: nodes, h => by
    intro p hp
    rcases List.mem_cons.mp hp with rfl | hp
    · exact v.solid h.1
    · exact nodeTexts_solid nodes h.2 p hp
end

end solid

section depth

/-- The number of open brackets after a byte. -/
def nextNesting (q : Quote) (d : Nat) (c : UInt8) : Nat :=
  if q ≠ .outside then d
  else if c = ch '{' ∨ c = ch '[' then d + 1
  else if c = ch '}' ∨ c = ch ']' then d - 1
  else d

/-- The largest number of brackets that are open at once in a text. -/
def nesting : Quote → Nat → Bytes → Nat
  | _, d, [] => d
  | q, d, c :: s => max d (nesting (q.next c) (nextNesting q d c) s)

theorem le_nesting (q : Quote) (d : Nat) (s : Bytes) : d ≤ nesting q d s := by
  cases s with
  | nil => exact Nat.le_refl d
  | cons c s => exact Nat.le_max_left _ _

theorem pred_toNat (d : UInt8) : (if d > 0 then d - 1 else d).toNat = d.toNat - 1 := by
  revert d
  decide +kernel

/-- As long as no depth passes 255 the one-byte counter is the depth. -/
theorem nextDepth_toNat (k : Cursor) (c : UInt8)
    (h : nextNesting k.quote k.depth.toNat c ≤ 255) :
    (k.nextDepth c).toNat = nextNesting k.quote k.depth.toNat c := by
  unfold nextNesting at h ⊢
  unfold Cursor.nextDepth
  by_cases h1 : k.quote ≠ .outside
  · rw [if_pos h1, if_pos h1]
  rw [if_neg h1] at h ⊢
  rw [if_neg h1]
  by_cases h2 : c = ch '{' ∨ c = ch '['
  · rw [if_pos h2] at h ⊢
    rw [if_pos h2, UInt8.toNat_add]
    exact Nat.mod_eq_of_lt (Nat.lt_succ_of_le h)
  rw [if_neg h2, if_neg h2]
  by_cases h3 : c = ch '}' ∨ c = ch ']'
  · rw [if_pos h3, if_pos h3, pred_toNat]
  · rw [if_neg h3, if_neg h3]

/-- Indentations end when the deepest one does. -/
theorem settles_of_nesting (indent : UInt8) (k : Cursor) (s : Bytes)
    (h : nesting k.quote k.depth.toNat s * indent.toNat ≤ 255) : Settles indent k s := by
  induction s generalizing k with
  | nil => trivial
  | cons c s ih =>
    have hbelow : nesting (k.quote.next c) (nextNesting k.quote k.depth.toNat c) s * indent.toNat ≤ 255 :=
      (Nat.mul_le_mul_right _ (Nat.le_max_right _ _)).trans h
    have hnext : nextNesting k.quote k.depth.toNat c * indent.toNat ≤ 255 :=
      (Nat.mul_le_mul_right _ (le_nesting _ _ s)).trans hbelow
    rcases Nat.eq_zero_or_pos indent.toNat with hz | hpos
    · refine ⟨fun _ => by rw [hz]; exact Nat.zero_le _, ih _ ?_⟩
      rw [hz]
      exact Nat.zero_le _
    · have hdepth := nextDepth_toNat k c ((Nat.le_mul_of_pos_right _ hpos).trans hnext)
      refine ⟨fun _ => by rwa [hdepth], ih _ ?_⟩
      change nesting (k.quote.next c) (k.nextDepth c).toNat s * _ ≤ _
      rwa [hdepth]

end depth

section document
variable {maxSize : Nat}

/-- The pretty text of a document. -/
def prettyText (indent : UInt8) (nodes : List (NodeInfo × Value)) : Bytes :=
  pretty indent ⟨.outside, 0⟩ (documentText nodes)

/-- The largest number of brackets that are open at once in a document. -/
def nestingDepth (nodes : List (NodeInfo × Value)) : Nat := nesting .outside 0 (documentText nodes)

/-- What becomes of a document that is emitted through a new decorator: when the emission returns, the
pretty text has arrived whole and no failure is on record, or it did not fit and one is. -/
theorem emitDocument_prettied (nodes : List (NodeInfo × Value)) (hvalid : (Value.doc nodes).Valid)
    (indent : UInt8) (b : StackBuffer maxSize) (hw : b.Within) (emitted : Nat → Bool) :
    (∀ st' n, emitDocument nodes ⟨PrettyBuffer.new b indent, emitted⟩ = some (st', n) →
      Prettied (unformattedNodes nodes = true) .outside (documentText nodes)
        (PrettyBuffer.new b indent) st'.buf true) ∧
    (b.bad = false → b.head + (prettyText indent nodes).length ≤ maxSize →
      nestingDepth nodes * indent.toNat ≤ 255 →
      (emitDocument nodes ⟨PrettyBuffer.new b indent, emitted⟩).isSome = true) := by
  have hemits := ((prettyRules maxSize).emitDocument_emits nodes hvalid).emits.mono
    ((Value.doc nodes).unformatted_pieces hvalid)
  rw [documentPieces_text] at hemits
  obtain ⟨hret, hset⟩ := hemits.prints ⟨PrettyBuffer.new b indent, emitted⟩ ⟨hw, nofun⟩
  refine ⟨fun st' n h => hret st' true ?_, ?_⟩
  · simp only [h]
    rfl
  · intro hb hroom hdepth
    have h := hset ⟨rfl, hb⟩ rfl hroom (settles_of_nesting indent _ _ hdepth)
    cases he : emitDocument nodes ⟨PrettyBuffer.new b indent, emitted⟩ with
    | none =>
      simp only [he] at h
      cases h
    | some r => rfl

/-- With room for the pretty text, emission through the decorator returns without a failure and
appends a text that becomes the compact one when the whitespace outside of string literals is
removed. -/
theorem emitDocument_pretty_unspaced (nodes : List (NodeInfo × Value))
    (hvalid : (Value.doc nodes).Valid) (indent : UInt8)
    (hdepth : nestingDepth nodes * indent.toNat ≤ 255) (b : StackBuffer maxSize)
    (hg : b.bad = false) (hroom : b.head + (prettyText indent nodes).length ≤ maxSize)
    (emitted : Nat → Bool) :
    ∃ st' n, emitDocument nodes ⟨PrettyBuffer.new b indent, emitted⟩ = some (st', n) ∧
      st'.buf.bad = false ∧ st'.buf.dest.bad = false ∧
      ∃ text, st'.buf.dest.view = b.view ++ text ∧ unspaced .outside text = documentText nodes := by
  have hw : b.Within := Nat.le_trans (Nat.le_add_right _ _) hroom
  obtain ⟨hret, hset⟩ := emitDocument_prettied nodes hvalid indent b hw emitted
  obtain ⟨⟨st', n⟩, he⟩ := Option.isSome_iff_exists.mp (hset hg hroom hdepth)
  obtain ⟨-, hbad, ha, -⟩ := (hret st' n he).fits ⟨rfl, hg⟩ rfl hroom
  refine ⟨st', n, he, hbad, ha.bad.trans hg, prettyText indent nodes, ha.view, ?_⟩
  rw [prettyText, unspaced_pretty indent ⟨.outside, 0⟩]
  exact (Value.solid _ hvalid).unspaced

theorem emitDocument_pretty_unspaced_mergedPaths :
    ∃ st' n, emitDocument mergedPaths ⟨PrettyBuffer.new (StackBuffer.empty 123) 2, fun _ => false⟩ =
        some (st', n) ∧ st'.buf.bad = false ∧ st'.buf.dest.bad = false ∧
      ∃ text, st'.buf.dest.view = [] ++ text ∧ unspaced .outside text = documentText mergedPaths :=
  emitDocument_pretty_unspaced mergedPaths mergedPaths_valid 2 (by decide +kernel)
    (StackBuffer.empty 123) rfl (by decide +kernel) fun _ => false

/-- Whether the caller can see that something was lost: both flags are set and no element is taken any
more. -/
def FailureVisible (st : PrettyEmission maxSize) : Prop :=
  st.buf.bad = true ∧ st.buf.dest.bad = true ∧
    ∀ v first, ∃ st1 first1,
      emitElement (fun st => writeJsonValue v st) first st = some (st1, first1, false)

theorem failureVisible_iff (st : PrettyEmission maxSize) :
    FailureVisible st ↔ st.buf.bad = true ∧ st.buf.dest.bad = true := by
  refine ⟨fun h => ⟨h.1, h.2.1⟩, fun h => ⟨h.1, h.2, fun v first => ⟨st, first, ?_⟩⟩⟩
  exact if_pos h.1

/-- Some byte of the pretty text has not arrived. -/
def Loses (b : StackBuffer maxSize) (indent : UInt8) (nodes : List (NodeInfo × Value))
    (st : PrettyEmission maxSize) : Prop :=
  st.buf.dest.view ≠ b.view ++ prettyText indent nodes

/-- Exactly the texts that are too long lose a byte, and the loss is on record somewhere. -/
theorem emitDocument_pretty_loses (nodes : List (NodeInfo × Value))
    (hvalid : (Value.doc nodes).Valid) (indent : UInt8) (b : StackBuffer maxSize) (hw : b.Within)
    (hg : b.bad = false) (emitted : Nat → Bool) (st' : PrettyEmission maxSize) (n : Nat)
    (h : emitDocument nodes ⟨PrettyBuffer.new b indent, emitted⟩ = some (st', n)) :
    (Loses b indent nodes st' ↔ maxSize < b.head + (prettyText indent nodes).length) ∧
      (Loses b indent nodes st' → st'.buf.Failed) := by
  have hp := (emitDocument_prettied nodes hvalid indent b hw emitted).1 st' n h
  have hloses : Loses b indent nodes st' ↔ maxSize < b.head + (prettyText indent nodes).length := by
    constructor
    · intro hl
      by_contra hf
      exact hl (hp.fits ⟨rfl, hg⟩ rfl (Nat.le_of_not_lt hf)).2.2.1.view
    · intro hm hv
      have hlen := congrArg List.length hv
      have hin : st'.buf.dest.head ≤ maxSize := hp.sound.within
      rw [view_length _ hp.sound.within, List.length_append, view_length b hw] at hlen
      omega
  exact ⟨hloses, fun hl => hp.misfit ⟨rfl, hg⟩ rfl (Nat.not_le_of_lt (hloses.mp hl))⟩

/-- Where some piece of the document finds no room, the first that does not sets its flag. -/
theorem emitDocument_pretty_told (nodes : List (NodeInfo × Value)) (hvalid : (Value.doc nodes).Valid)
    (indent : UInt8) (b : StackBuffer maxSize) (hw : b.Within) (hg : b.bad = false) (emitted : Nat → Bool)
    (st' : PrettyEmission maxSize) (n : Nat)
    (h : emitDocument nodes ⟨PrettyBuffer.new b indent, emitted⟩ = some (st', n))
    (hm : maxSize < b.head + (prettyText indent nodes).length) :
    ∃ us p vs, documentPieces nodes = us ++ p :: vs ∧
      b.head + (pretty indent ⟨.outside, 0⟩ (piecesText us)).length ≤ maxSize ∧
      maxSize < b.head + (pretty indent ⟨.outside, 0⟩ (piecesText (us ++ [p]))).length ∧ p.Told st'.buf := by
  have htext := documentPieces_text nodes
  have hfull : ¬ (PrettyBuffer.new b indent).Room (piecesText (documentPieces nodes)) := by
    rw [htext]
    exact Nat.not_le_of_lt hm
  obtain ⟨us, p, vs, hps, hroom, hnot⟩ := first_refused (PrettyBuffer.new b indent) (documentPieces nodes) hw hfull
  refine ⟨us, p, vs, hps, hroom, Nat.lt_of_not_le hnot, ?_⟩
  exact ((tellRules maxSize).emitDocument_emits nodes hvalid).told us p vs hps ⟨PrettyBuffer.new b indent, emitted⟩
    st' true ⟨hw, nofun⟩ ⟨⟨rfl, hg⟩, rfl, hroom, hnot⟩ (by rw [h]; rfl)

/-- If the pretty text fits, nothing is lost and no flag is set. When nothing in the document is formatted in
the span, a loss is visible on the decorator only then. In every document the first refused piece sets the flag
of the object that refused it. -/
theorem emitDocument_pretty_visible (nodes : List (NodeInfo × Value))
    (hvalid : (Value.doc nodes).Valid) (indent : UInt8) (b : StackBuffer maxSize) (hw : b.Within)
    (hg : b.bad = false) (emitted : Nat → Bool) (st' : PrettyEmission maxSize) (n : Nat)
    (h : emitDocument nodes ⟨PrettyBuffer.new b indent, emitted⟩ = some (st', n)) :
    (b.head + (prettyText indent nodes).length ≤ maxSize →
      ¬ Loses b indent nodes st' ∧ st'.buf.bad = false ∧ st'.buf.dest.bad = false) ∧
    (unformattedNodes nodes = true → (Loses b indent nodes st' → FailureVisible st') →
      b.head + (prettyText indent nodes).length ≤ maxSize) ∧
    (maxSize < b.head + (prettyText indent nodes).length →
      ∃ us p vs, documentPieces nodes = us ++ p :: vs ∧
        b.head + (pretty indent ⟨.outside, 0⟩ (piecesText us)).length ≤ maxSize ∧
        maxSize < b.head + (pretty indent ⟨.outside, 0⟩ (piecesText (us ++ [p]))).length ∧ p.Told st'.buf) := by
  have hp := (emitDocument_prettied nodes hvalid indent b hw emitted).1 st' n h
  obtain ⟨hloses, -⟩ := emitDocument_pretty_loses nodes hvalid indent b hw hg emitted st' n h
  refine ⟨fun hf => ?_, ?_, emitDocument_pretty_told nodes hvalid indent b hw hg emitted st' n h⟩
  · obtain ⟨-, hown, ha, -⟩ := hp.fits ⟨rfl, hg⟩ rfl hf
    exact ⟨fun hl => absurd hf (Nat.not_le_of_lt (hloses.mp hl)), hown, ha.bad.trans hg⟩
  · intro hu hvisible
    by_contra hm
    have hbad := (hvisible (hloses.mpr (Nat.lt_of_not_le hm))).1
    rw [hp.silent hu] at hbad
    cases hbad

/-- An object with one literal in it. -/
def nullMember : List (NodeInfo × Value) := [(⟨0, false, [bytes "a"]⟩, .null)]

theorem nullMember_valid : (Value.doc nullMember).Valid :=
  ⟨⟨by decide, by decide, by decide, by decide⟩, trivial, trivial⟩

theorem emitDocument_pretty_visible_nullMember :
    ∃ st' n, emitDocument nullMember ⟨PrettyBuffer.new (StackBuffer.empty 15) 2, fun _ => false⟩ =
        some (st', n) ∧ ¬ Loses (StackBuffer.empty 15) 2 nullMember st' ∧ st'.buf.bad = false ∧
      st'.buf.dest.bad = false := by
  have hroom : (StackBuffer.empty 15).head + (prettyText 2 nullMember).length ≤ 15 := by decide
  have hreturns := (emitDocument_prettied nullMember nullMember_valid 2 (StackBuffer.empty 15)
    (Nat.zero_le _) fun _ => false).2 rfl hroom (by decide)
  obtain ⟨⟨st', n⟩, he⟩ := Option.isSome_iff_exists.mp hreturns
  exact ⟨st', n, he, (emitDocument_pretty_visible nullMember nullMember_valid 2 (StackBuffer.empty 15)
    (Nat.zero_le _) rfl (fun _ => false) st' n he).1 hroom⟩

/-- The literal is refused and only the buffer behind knows: the next element is reported as taken. -/
theorem emitDocument_pretty_hidden :
    ∃ st' n, emitDocument nullMember ⟨PrettyBuffer.new (StackBuffer.empty 12) 2, fun _ => false⟩ =
        some (st', n) ∧ Loses (StackBuffer.empty 12) 2 nullMember st' ∧ ¬ FailureVisible st' ∧
      st'.buf.dest.bad = true ∧
      (emitElement (fun st => writeJsonValue .null st) true st').map (fun y => y.2.2) = some true := by
  have hrun : (emitDocument nullMember ⟨PrettyBuffer.new (StackBuffer.empty 12) 2, fun _ => false⟩).map
        (fun x => (x.1.buf.dest.view, x.1.buf.bad, x.1.buf.dest.bad,
          (emitElement (fun st => writeJsonValue .null st) true x.1).map fun y => y.2.2)) =
      some (bytes "\x7b\n  \"a\": \n\x7d", false, true, some true) := by decide +kernel
  obtain ⟨⟨st', n⟩, he, hx⟩ := Option.map_eq_some_iff.mp hrun
  simp only [Prod.mk.injEq] at hx
  obtain ⟨hview, hown, hdest, hemit⟩ := hx
  refine ⟨st', n, he, ?_, ?_, hdest, hemit⟩
  · rw [Loses, hview]
    decide
  · intro hv
    obtain ⟨hset, -⟩ := (failureVisible_iff st').mp hv
    rw [hset] at hown
    cases hown

end document

end Espbase.StackJson
