import Espbase.StackJson.EmitRules
import Espbase.StackJson.Escapers
import Espbase.StackJson.Stable

namespace Espbase.StackJson

open Espbase.Lib

/-- The container had `size` cells and has only grown, at no time by more than leaves `expandSize` cells free. -/
structure DynamicBuffer.Sized {expandSize : Nat} (size : Nat) (b : DynamicBuffer expandSize) : Prop where
  kept : size ≤ b.buffer.length
  grown : b.buffer.length ≤ max size (b.head + expandSize)

section sized
variable {expandSize size : Nat}

/-- Growing by a write or for a span leaves `expandSize` free cells, and everything else takes some. -/
theorem stable_sized (size : Nat) : Stable (@DynamicBuffer.Sized expandSize size) := by
  have copyTo (b b1 : DynamicBuffer expandSize) (pos : Nat) (str : Bytes)
      (h : b.copyTo pos str = some b1) : b1.buffer.length = b.buffer.length ∧ b1.head = b.head := by
    unfold DynamicBuffer.copyTo at h
    split_ifs at h with hfit
    cases h
    exact ⟨overwrite_length _ _ _ hfit, rfl⟩
  refine ⟨?_, ?_, ?_, ?_, fun b h => ⟨h.kept, h.grown⟩⟩
  · intro b str b' n ⟨hkept, hgrown⟩ he
    obtain ⟨b1, h1, he⟩ := Option.bind_eq_some_iff.mp he
    cases he
    obtain ⟨hlen, hhead⟩ := copyTo _ b1 _ str h1
    have hsize : (b.grow str.length).head = b.head ∧ (b.grow str.length).buffer.length =
        if b.head + str.length > b.buffer.length then b.head + str.length + expandSize else b.buffer.length := by
      unfold DynamicBuffer.grow
      split_ifs
      · exact ⟨rfl, DynamicBuffer.resize_length b _⟩
      · exact ⟨rfl, rfl⟩
    rw [hsize.2] at hlen
    rw [hsize.1] at hhead
    constructor
    · dsimp only
      rw [hlen]
      split_ifs <;> omega
    · dsimp only
      rw [hlen]
      split_ifs <;> omega
  · intro b ⟨hkept, hgrown⟩
    change b.getWriteSpan.Sized size
    unfold DynamicBuffer.getWriteSpan
    split_ifs with hshort
    · have hlen := DynamicBuffer.resize_length b (b.head + expandSize)
      exact ⟨by rw [hlen]; omega, Nat.le_trans (Nat.le_of_eq hlen) (Nat.le_max_right _ _)⟩
    · exact ⟨hkept, hgrown⟩
  · intro b i str b' ⟨hkept, hgrown⟩ he
    obtain ⟨hlen, hhead⟩ := copyTo b b' _ str he
    exact ⟨hlen ▸ hkept, by rw [hlen, hhead]; exact hgrown⟩
  · intro b n b' ⟨hkept, hgrown⟩ he
    change b.commit n = some b' at he
    unfold DynamicBuffer.commit at he
    split_ifs at he
    cases he
    refine ⟨hkept, ?_⟩
    dsimp only
    omega

/-- The write span has `expandSize` cells, or as many as are left of the `size` cells. -/
theorem sized_span (b : DynamicBuffer expandSize) (hw : b.Within) (hs : b.Sized size) :
    (Buffer.getWriteSpan b).2 = max expandSize (size - b.head) := by
  change b.getWriteSpan.buffer.length - b.getWriteSpan.head = _
  have hin : b.head ≤ b.buffer.length := hw
  obtain ⟨hkept, hgrown⟩ := hs
  unfold DynamicBuffer.getWriteSpan
  split_ifs with hshort
  · rw [DynamicBuffer.resize_length]
    change b.head + expandSize - b.head = _
    omega
  · omega

/-- An integer at this position needs a span as long as its text; everything else grows the container. -/
def Piece.Fits (expandSize size pos : Nat) : Piece → Prop
  | .integer n => (signedDecimal n.val).length ≤ max expandSize (size - pos)
  | _ => True

/-- The pieces fit one after the other. -/
def AllFit (expandSize size : Nat) : Nat → List Piece → Prop
  | _, [] => True
  | pos, p :: ps => p.Fits expandSize size pos ∧ AllFit expandSize size (pos + (piecesText [p]).length) ps

theorem piecesText_cons_length (p : Piece) (ps : List Piece) :
    (piecesText (p :: ps)).length = (piecesText [p]).length + (piecesText ps).length := by
  rw [← List.singleton_append, piecesText_append, List.length_append]

theorem allFit_append (pos : Nat) (ps qs : List Piece) :
    AllFit expandSize size pos (ps ++ qs) ↔
      AllFit expandSize size pos ps ∧ AllFit expandSize size (pos + (piecesText ps).length) qs := by
  induction ps generalizing pos with
  | nil => exact ⟨fun h => ⟨trivial, h⟩, fun h => h.2⟩
  | cons p ps ih =>
    rw [piecesText_cons_length, ← Nat.add_assoc]
    exact (and_congr_right' (ih _)).trans and_assoc.symm

theorem allFit_iff (pos : Nat) (ps : List Piece) :
    AllFit expandSize size pos ps ↔ ∀ us k vs, ps = us ++ .integer k :: vs →
      (signedDecimal k.val).length ≤ max expandSize (size - (pos + (piecesText us).length)) := by
  refine ⟨?_, fun h => ?_⟩
  · rintro h us k vs rfl
    exact ((allFit_append pos us _).mp h).2.1
  induction ps generalizing pos with
  | nil => trivial
  | cons p ps ih =>
    refine ⟨?_, ih _ ?_⟩
    · cases p with
      | integer k => exact h [] k ps rfl
      | _ => trivial
    · rintro us k vs rfl
      have hlen := h (p :: us) k vs rfl
      rwa [piecesText_cons_length, ← Nat.add_assoc] at hlen

/-- From `b` to `b'` the pieces were emitted: the buffer fails with the first integer that does not fit, and
until then its text is theirs. -/
structure Grown (size : Nat) (ps : List Piece) (b b' : DynamicBuffer expandSize) (ok : Bool) : Prop where
  within : b'.Within
  sized : b'.Sized size
  bad : b'.bad = true ↔ b.bad = true ∨ ¬ AllFit expandSize size b.head ps
  text : b.bad = false → AllFit expandSize size b.head ps → ok = true ∧ b'.view = b.view ++ piecesText ps

section Grown
variable {ps qs : List Piece} {b b1 b2 : DynamicBuffer expandSize} {ok ok' : Bool}

theorem Grown.good (h : Grown size ps b b1 ok) (hg : b.bad = false) (hf : AllFit expandSize size b.head ps) :
    b1.bad = false := by
  cases hb : b1.bad with
  | false => rfl
  | true =>
    rcases h.bad.mp hb with hb | hn
    · rw [hg] at hb
      cases hb
    · exact absurd hf hn

theorem Grown.head (h : Grown size ps b b1 ok) (hw : b.Within) (hg : b.bad = false)
    (hf : AllFit expandSize size b.head ps) : b1.head = b.head + (piecesText ps).length := by
  have hview := congrArg List.length (h.text hg hf).2
  rwa [List.length_append, b1.view_length h.within, b.view_length hw] at hview

/-- Once the buffer has failed, it does not matter what follows. -/
theorem Grown.lost (h : Grown size ps b b1 ok) (hb : b1.bad = true) (hw : b2.Within) (hs : b2.Sized size)
    (hb2 : b2.bad = true) (qs : List Piece) : Grown size (ps ++ qs) b b2 ok' := by
  have hlost : b.bad = true ∨ ¬ AllFit expandSize size b.head (ps ++ qs) :=
    (h.bad.mp hb).imp_right fun hn hf => hn ((allFit_append _ ps qs).mp hf).1
  refine ⟨hw, hs, ⟨fun _ => hlost, fun _ => hb2⟩, ?_⟩
  intro hg hf
  rcases hlost with hb | hn
  · rw [hg] at hb
    cases hb
  · exact absurd hf hn

theorem Grown.trans (h : Grown size ps b b1 ok) (hw : b.Within) (k : Grown size qs b1 b2 ok') :
    Grown size (ps ++ qs) b b2 ok' := by
  cases hb : b1.bad with
  | true => exact h.lost hb k.within k.sized (k.bad.mpr (.inl hb)) qs
  | false =>
    have hsound : b.bad = false ∧ AllFit expandSize size b.head ps := by
      have hn := fun hlost => Bool.false_ne_true (hb.symm.trans (h.bad.mpr hlost))
      obtain ⟨hg, hf⟩ := not_or.mp hn
      exact ⟨eq_false_of_ne_true hg, not_not.mp hf⟩
    obtain ⟨hg, hf⟩ := hsound
    have hqs : AllFit expandSize size b.head (ps ++ qs) ↔ AllFit expandSize size b1.head qs := by
      rw [allFit_append, h.head hw hg hf]
      exact and_iff_right hf
    refine ⟨k.within, k.sized, ?_, fun _ hall => ?_⟩
    · rw [k.bad, hqs, hb, hg]
    · obtain ⟨hok, hview⟩ := k.text hb (hqs.mp hall)
      exact ⟨hok, by rw [hview, (h.text hg hf).2, piecesText_append, List.append_assoc]⟩

theorem Grown.stop (h : Grown size ps b b1 ok) (hb : b1.bad = true) (qs : List Piece) :
    Grown size (ps ++ qs) b b1 ok' := h.lost hb h.within h.sized hb qs

/-- A call reports a failure only when there is one. -/
theorem Grown.failed (h : Grown size ps b b1 false) : b1.bad = true := by
  apply h.bad.mpr
  by_contra hn
  obtain ⟨hg, hf⟩ := not_or.mp hn
  exact Bool.false_ne_true (h.text (by simpa using hg) (not_not.mp hf)).1

/-- A call that always appends its text. -/
theorem Grown.of_appended (p : Piece) (hp : p.Fits expandSize size b.head) (hs : b1.Sized size)
    (ha : DynamicBuffer.Appended b p.chunks.flatten b1) : Grown size [p] b b1 true := by
  have hf : AllFit expandSize size b.head [p] := ⟨hp, trivial⟩
  refine ⟨ha.within, hs, ?_, fun _ _ => ⟨rfl, ?_⟩⟩
  · rw [ha.bad]
    exact ⟨.inl, fun h => h.resolve_right (not_not.mpr hf)⟩
  · rw [ha.view]
    simp [piecesText]

theorem Grown.nil (hw : b.Within) (hs : b.Sized size) : Grown size [] b b true := by
  refine ⟨hw, hs, ⟨.inl, fun h => h.resolve_right fun hn => hn trivial⟩, ?_⟩
  exact fun _ _ => ⟨rfl, (List.append_nil _).symm⟩

/-- A call on a failed buffer that leaves it alone. -/
theorem Grown.of_bad (hw : b.Within) (hs : b.Sized size) (hb : b.bad = true) : Grown size ps b b ok := by
  refine ⟨hw, hs, ⟨.inl, fun _ => hb⟩, ?_⟩
  intro hg
  rw [hg] at hb
  cases hb

end Grown

/-- What is asked of an emission into a buffer that had `size` cells. -/
def GrowEmits (size : Nat) (ps : List Piece)
    (e : Emission (DynamicBuffer expandSize) → Option (Emission (DynamicBuffer expandSize) × Bool)) :
    Prop :=
  (∀ texts, Piece.printed texts ∉ ps) → ∀ st, st.buf.Within → st.buf.Sized size →
    ∃ st' ok, e st = some (st', ok) ∧ Grown size ps st.buf st'.buf ok

theorem write_growEmits (str : Bytes) (hne : str ≠ []) :
    GrowEmits size [.mark str] fun st : Emission (DynamicBuffer expandSize) => st.write str := by
  intro _ st hw hs
  obtain ⟨b', he, ha⟩ := DynamicBuffer.write_appends st.buf str hw
  have hpos := List.length_pos_iff.mpr hne
  refine ⟨{ st with buf := b' }, true, ?_, Grown.of_appended (.mark str) trivial ?_ ?_⟩
  · simp [Emission.write, he, hne]
  · exact (stable_sized size).write st.buf str b' _ hs he
  · simpa [Piece.chunks] using ha

theorem writeEscaped_growEmits (str : Bytes) :
    GrowEmits size [.quoted str] fun st : Emission (DynamicBuffer expandSize) => st.writeEscaped str := by
  intro _ st hw hs
  cases hb : st.buf.bad with
  | true =>
    have hstop : writeEscaped st.buf str = some (st.buf, 0) := if_pos hb
    exact ⟨st, false, by simp [Emission.writeEscaped, hstop], Grown.of_bad hw hs hb⟩
  | false =>
    obtain ⟨b', n, he, hn, ha⟩ := DynamicBuffer.writeEscaped_appends st.buf str hw hb
    refine ⟨{ st with buf := b' }, true, ?_, Grown.of_appended (.quoted str) trivial ?_ ?_⟩
    · simp [Emission.writeEscaped, he, hn]
    · exact (stable_sized size).writeEscaped st.buf str b' n hs he
    · rw [Piece.chunks, stringChunks_flatten]
      exact ha

/-- An integer is refused exactly when its text is longer than the span. -/
theorem putInteger_growEmits (n : Integer) :
    GrowEmits size [.integer n] fun st : Emission (DynamicBuffer expandSize) => voided (st.putInteger n) := by
  intro _ st hw hs
  cases hb : st.buf.bad with
  | true =>
    exact ⟨st, true, by simp [Emission.putInteger, voided, writeInteger_bad st.buf n hb],
      Grown.of_bad hw hs hb⟩
  | false =>
    have hspan := sized_span st.buf hw hs
    by_cases hfit : (signedDecimal n.val).length ≤ max expandSize (size - st.buf.head)
    · obtain ⟨b', -, -, he, ha, -, -⟩ := writeInteger_fits st.buf n hw hb (by rw [hspan]; exact hfit)
      refine ⟨{ st with buf := b' }, true, by simp [Emission.putInteger, voided, he],
        Grown.of_appended (.integer n) hfit ?_ ⟨ha.valid, ?_, ha.bad⟩⟩
      · exact (stable_sized size).writeInteger st.buf n b' hs hb he
      · have hview : b'.view = st.buf.view ++ signedDecimal n.val := ha.view
        simpa [Piece.chunks] using hview
    · obtain ⟨b', -, he, hr⟩ := writeInteger_misfit st.buf n hw hb (by rw [hspan]; exact Nat.lt_of_not_le hfit)
      have hlost : ¬ AllFit expandSize size st.buf.head [.integer n] := fun hf => hfit hf.1
      refine ⟨{ st with buf := b' }, true, by simp [Emission.putInteger, voided, he], hr.valid, ?_,
        ⟨fun _ => .inr hlost, fun _ => hr.bad⟩, fun _ hf => absurd hf hlost⟩
      exact (stable_sized size).writeInteger st.buf n b' hs hb he

section sequence
variable {ps qs : List Piece}

theorem GrowEmits.next
    {e k : Emission (DynamicBuffer expandSize) → Option (Emission (DynamicBuffer expandSize) × Bool)}
    (he : GrowEmits size ps e) (hk : GrowEmits size qs k) : GrowEmits size (ps ++ qs) fun st => andThen (e st) k := by
  intro hplain st hw hs
  have hps (texts : List Bytes) := fun hm => hplain texts (List.mem_append_left qs hm)
  have hqs (texts : List Bytes) := fun hm => hplain texts (List.mem_append_right ps hm)
  obtain ⟨st1, ok1, h1, hg1⟩ := he hps st hw hs
  cases ok1 with
  | false => exact ⟨st1, false, by simp [andThen, h1], hg1.stop hg1.failed qs⟩
  | true =>
    obtain ⟨st2, ok2, h2, hg2⟩ := hk hqs st1 hg1.within hg1.sized
    exact ⟨st2, ok2, by simp [andThen, h1, h2], hg1.trans hw hg2⟩

theorem separator_growEmits (first : Bool) :
    GrowEmits size (separatorPieces first) fun st : Emission (DynamicBuffer expandSize) =>
      separator first st := by
  cases first with
  | false => exact write_growEmits [ch ','] (by simp)
  | true =>
    exact fun _ st hw hs => ⟨st, true, rfl, Grown.nil hw hs⟩

/-- One `emit` of a streaming callback reports whether the buffer is still sound. -/
theorem emitElement_grown (first : Bool)
    (e : Emission (DynamicBuffer expandSize) → Option (Emission (DynamicBuffer expandSize)))
    (he : GrowEmits size ps fun st => voided (e st)) (hplain : ∀ texts, Piece.printed texts ∉ ps)
    (st : Emission (DynamicBuffer expandSize)) (hw : st.buf.Within) (hs : st.buf.Sized size) :
    ∃ st1 first1, emitElement e first st = some (st1, first1, !st1.buf.bad) ∧
      Grown size (separatorPieces first ++ ps) st.buf st1.buf true ∧ (st1.buf.bad = false → first1 = false) := by
  have hbuf (st : Emission (DynamicBuffer expandSize)) : Buffer.bad st.buf = st.buf.bad := rfl
  unfold emitElement
  simp only [hbuf]
  cases hb : st.buf.bad with
  | true => exact ⟨st, first, by simp [hb], Grown.of_bad hw hs hb, by simp [hb]⟩
  | false =>
    have hsep : ∀ texts, Piece.printed texts ∉ separatorPieces first := by
      intro texts
      cases first <;> simp [separatorPieces]
    obtain ⟨st1, ok1, h1, hg1⟩ := separator_growEmits first hsep st hw hs
    cases ok1 with
    | false =>
      have hbad := hg1.failed
      exact ⟨st1, false, by simp [h1, hbad], hg1.stop hbad ps, fun _ => rfl⟩
    | true =>
      obtain ⟨st2, ok2, h2, hg2⟩ := he hplain st1 hg1.within hg1.sized
      obtain ⟨st3, h3, h4⟩ := Option.map_eq_some_iff.mp h2
      obtain ⟨rfl, rfl⟩ := Prod.mk.inj h4
      exact ⟨st3, false, by simp [h1, h3], hg1.trans hw hg2, fun _ => rfl⟩

theorem stream_growEmits (breaks first : Bool) (rest : Bool → List Piece)
    {e : Emission (DynamicBuffer expandSize) → Option (Emission (DynamicBuffer expandSize))}
    {k : Bool → Emission (DynamicBuffer expandSize) → Option (Emission (DynamicBuffer expandSize))}
    (hsub : rest true ⊆ rest false) (he : GrowEmits size ps fun st => voided (e st))
    (hk : ∀ first, GrowEmits size (rest first) fun st => voided (k first st)) :
    GrowEmits size (separatorPieces first ++ (ps ++ rest false)) fun st =>
      voided ((emitElement e first st).bind fun x =>
        if breaks && !x.2.2 then some x.1 else k x.2.1 x.1) := by
  rw [← List.append_assoc]
  intro hplain st hw hs
  have hps (texts : List Bytes) := fun hm : Piece.printed texts ∈ ps =>
    hplain texts (List.mem_append_left _ (List.mem_append_right _ hm))
  have hrest (first : Bool) (texts : List Bytes) (hm : Piece.printed texts ∈ rest first) : False := by
    apply hplain texts (List.mem_append_right _ _)
    cases first with
    | false => exact hm
    | true => exact hsub hm
  obtain ⟨st1, first1, h1, hg1, hfirst⟩ := emitElement_grown first e he hps st hw hs
  obtain ⟨_, _, h2, hg2⟩ := hk first1 (hrest first1) st1 hg1.within hg1.sized
  obtain ⟨st2, h3, h4⟩ := Option.map_eq_some_iff.mp h2
  obtain ⟨rfl, rfl⟩ := Prod.mk.inj h4
  cases hb : st1.buf.bad with
  | false =>
    obtain rfl := hfirst hb
    exact ⟨st2, true, by simp [voided, h1, hb, h3], hg1.trans hw hg2⟩
  | true =>
    have hb2 : st2.buf.bad = true := hg2.bad.mpr (.inl hb)
    cases breaks with
    | true => exact ⟨st1, true, by simp [voided, h1, hb], hg1.stop hb _⟩
    | false =>
      exact ⟨st2, true, by simp [voided, h1, h3], hg1.lost hb hg2.within hg2.sized hb2 _⟩

end sequence

/-- The rules for a growing buffer. -/
def growRules (expandSize size : Nat) : EmitRules (DynamicBuffer expandSize) where
  Emits := GrowEmits size
  nil := fun _ st hw hs => ⟨st, true, rfl, Grown.nil hw hs⟩
  next := GrowEmits.next
  drop he := by
    intro hplain st hw hs
    obtain ⟨st', ok, h, hg⟩ := he hplain st hw hs
    exact ⟨st', true, by simp [h], hg.within, hg.sized, hg.bad, fun hb hf => ⟨rfl, (hg.text hb hf).2⟩⟩
  flags he hsame := by
    intro hplain st hw hs
    obtain ⟨emitted, heq⟩ := hsame st
    obtain ⟨st1, ok, h, hg⟩ := he hplain ⟨st.buf, emitted⟩ hw hs
    rw [h] at heq
    obtain ⟨⟨st', ok'⟩, h', hx⟩ := Option.map_eq_some_iff.mp heq
    obtain ⟨hbuf, rfl⟩ := Prod.mk.inj hx
    exact ⟨st', ok', h', hbuf ▸ hg⟩
  mark str hne _ := write_growEmits str hne
  quoted := writeEscaped_growEmits
  integer := putInteger_growEmits
  printed texts := fun hplain => absurd (List.mem_singleton.mpr rfl) (hplain texts)
  stream := stream_growEmits

end sized

section document
variable {expandSize : Nat}

/-- What becomes of a document without print callbacks. -/
theorem emitDocument_grown (nodes : List (NodeInfo × Value)) (hvalid : (Value.doc nodes).Valid)
    (hplain : plainNodes nodes = true) (st : Emission (DynamicBuffer expandSize)) (hw : st.buf.Within) :
    ∃ st' n, emitDocument nodes st = some (st', n) ∧
      Grown st.buf.buffer.length (documentPieces nodes) st.buf st'.buf true := by
  have hpieces (texts : List Bytes) (hm : Piece.printed texts ∈ documentPieces nodes) : False :=
    (Value.doc nodes).plain_pieces hvalid hplain _ hm texts rfl
  have hsized : st.buf.Sized st.buf.buffer.length := ⟨Nat.le_refl _, Nat.le_max_left _ _⟩
  obtain ⟨st', ok, h, hg⟩ :=
    (growRules expandSize st.buf.buffer.length).emitDocument_emits nodes hvalid hpieces st hw hsized
  obtain ⟨⟨st1, n⟩, he, hx⟩ := Option.map_eq_some_iff.mp h
  obtain ⟨rfl, rfl⟩ := Prod.mk.inj hx
  exact ⟨st1, n, he, hg⟩

/-- A sound buffer takes every document in which no integer is longer than what is free at its place, or than
`expandSize`, and no other. -/
theorem emitDocument_dynamic_iff (b : DynamicBuffer expandSize) (hw : b.Within) (hb : b.bad = false)
    (nodes : List (NodeInfo × Value)) (hvalid : (Value.doc nodes).Valid) (hplain : plainNodes nodes = true)
    (emitted : Nat → Bool) :
    ∃ st' n, emitDocument nodes ⟨b, emitted⟩ = some (st', n) ∧ st'.buf.head ≤ st'.buf.buffer.length ∧
      ((st'.buf.bad = false ∧ st'.buf.view = b.view ++ documentText nodes) ↔
        ∀ us k vs, documentPieces nodes = us ++ .integer k :: vs → (signedDecimal k.val).length ≤
          max expandSize (b.buffer.length - (b.head + (piecesText us).length))) := by
  obtain ⟨st', n, he, hg⟩ := emitDocument_grown nodes hvalid hplain ⟨b, emitted⟩ hw
  refine ⟨st', n, he, hg.within, ?_⟩
  rw [← allFit_iff]
  constructor
  · intro h
    by_contra hn
    rw [hg.bad.mpr (.inr hn)] at h
    cases h.1
  · intro hf
    refine ⟨hg.good hb hf, ?_⟩
    rw [(hg.text hb hf).2, documentPieces_text]

/-- A member with an integer of two digits. -/
def twoDigits : List (NodeInfo × Value) :=
  [(⟨0, false, [bytes "a"]⟩, .int ⟨⟨.w32, true⟩, 12, by decide, by decide⟩)]

theorem twoDigits_valid : (Value.doc twoDigits).Valid :=
  ⟨⟨by decide, by decide, by decide, by decide⟩, trivial, trivial⟩

theorem emitDocument_dynamic_twoDigits :
    ∃ st' n, emitDocument twoDigits ⟨DynamicBuffer.empty 2, fun _ => false⟩ = some (st', n) ∧
      st'.buf.bad = false ∧ st'.buf.view = bytes "\x7b\"a\":12\x7d" := by
  obtain ⟨st', n, he, -, hiff⟩ :=
    emitDocument_dynamic_iff (.empty 2) (Nat.zero_le _) rfl twoDigits twoDigits_valid rfl fun _ => false
  have htext : (signedDecimal 12).length ≤ 2 := by decide
  have hfit : AllFit 2 2 0 (documentPieces twoDigits) :=
    ⟨trivial, trivial, trivial, htext.trans (Nat.le_max_left _ _), trivial, trivial⟩
  obtain ⟨hb, hv⟩ := hiff.mpr ((allFit_iff _ _).mp hfit)
  exact ⟨st', n, he, hb, hv⟩

/-- With one byte to spare the integer is refused, and the member loses its value. -/
theorem emitDocument_dynamic_refused :
    (Value.doc twoDigits).Valid ∧ plainNodes twoDigits = true ∧
      ∃ st' n, emitDocument twoDigits ⟨DynamicBuffer.empty 1, fun _ => false⟩ = some (st', n) ∧
        st'.buf.bad = true ∧ st'.buf.view = bytes "\x7b\"a\":\x7d" ∧
        documentText twoDigits = bytes "\x7b\"a\":12\x7d" := by
  have hrun : (emitDocument twoDigits ⟨DynamicBuffer.empty 1, fun _ => false⟩).map
      (fun x => (x.1.buf.bad, x.1.buf.view)) = some (true, bytes "\x7b\"a\":\x7d") := by decide
  obtain ⟨⟨st', n⟩, he, hx⟩ := Option.map_eq_some_iff.mp hrun
  obtain ⟨hb, hv⟩ := Prod.mk.inj hx
  exact ⟨twoDigits_valid, rfl, st', n, he, hb, hv, by decide⟩

/-- No integer text is longer than twenty bytes. -/
theorem signedDecimal_length_le (n : Integer) : (signedDecimal n.val).length ≤ 20 := by
  obtain ⟨⟨width, signed⟩, val, ge, le⟩ := n
  have hbits : width.bits ≤ 64 := by cases width <;> decide
  have hlen (k : Nat) (hk : 0 < k) := decimal_length_le_iff val.natAbs k hk
  change (signedDecimal val).length ≤ 20
  rw [signedDecimal_length]
  cases signed with
  | true =>
    have hpow : (2 : Int) ^ (width.bits - 1) ≤ 2 ^ 63 :=
      pow_le_pow_right₀ (by decide) (Nat.sub_le_sub_right hbits 1)
    simp only [IntType.min, IntType.max, if_true] at ge le
    have := (hlen 19 (by decide)).mpr (by omega)
    split_ifs <;> omega
  | false =>
    have hpow : (2 : Int) ^ width.bits ≤ 2 ^ 64 := pow_le_pow_right₀ (by decide) hbits
    simp only [IntType.min, IntType.max, Bool.false_eq_true, if_false] at ge le
    have := (hlen 20 (by decide)).mpr (by omega)
    rw [if_neg (by simpa using ge)]
    exact this

/-- With twenty bytes or more to expand into, every document arrives whole. -/
theorem emitDocument_dynamic_wide (nodes : List (NodeInfo × Value)) (hvalid : (Value.doc nodes).Valid)
    (hplain : plainNodes nodes = true) (hwide : 20 ≤ expandSize)
    (st : Emission (DynamicBuffer expandSize)) (hw : st.buf.Within) (hg : st.buf.bad = false) :
    ∃ st' n, emitDocument nodes st = some (st', n) ∧ st'.buf.bad = false ∧
      st'.buf.view = st.buf.view ++ documentText nodes := by
  obtain ⟨st', n, he, hgrown⟩ := emitDocument_grown nodes hvalid hplain st hw
  have hfit : AllFit expandSize st.buf.buffer.length st.buf.head (documentPieces nodes) :=
    (allFit_iff _ _).mpr fun _ k _ _ =>
      ((signedDecimal_length_le k).trans hwide).trans (Nat.le_max_left _ _)
  refine ⟨st', n, he, hgrown.good hg hfit, ?_⟩
  rw [(hgrown.text hg hfit).2, documentPieces_text]

end document

end Espbase.StackJson
