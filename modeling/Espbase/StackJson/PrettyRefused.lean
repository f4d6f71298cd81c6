import Mathlib.Data.List.Induction
import Espbase.StackJson.PrettyValue
import Espbase.StackJson.Stable

namespace Espbase.StackJson

open Espbase.Lib StackBuffer PrettyBuffer

variable {maxSize : Nat}

/-- No flag is taken back. -/
structure PrettyBuffer.FlagsKept (pb pb' : PrettyStack maxSize) : Prop where
  own : pb.bad = true → pb'.bad = true
  behind : pb.dest.bad = true → pb'.dest.bad = true

section kept
variable {pb pb1 pb2 : PrettyStack maxSize}

theorem PrettyBuffer.FlagsKept.refl (pb : PrettyStack maxSize) : FlagsKept pb pb := ⟨id, id⟩

theorem PrettyBuffer.FlagsKept.trans (h : FlagsKept pb pb1) (k : FlagsKept pb1 pb2) : FlagsKept pb pb2 :=
  ⟨fun hb => k.own (h.own hb), fun hb => k.behind (h.behind hb)⟩

/-- Each call on a sound decorator leaves it sound and takes no flag back. -/
theorem stable_kept (pb : PrettyStack maxSize) :
    Stable fun pb' : PrettyStack maxSize => pb'.Sound ∧ FlagsKept pb pb' := by
  have hsame (pb1 : PrettyStack maxSize) (h : pb1.Sound ∧ FlagsKept pb pb1) (dest : StackBuffer maxSize)
      (hw : dest.Within) (hb : dest.bad = pb1.dest.bad) :
      PrettyBuffer.Sound { pb1 with dest } ∧ FlagsKept pb { pb1 with dest } :=
    ⟨⟨hw, h.1.tidy⟩, h.2.own, fun hbad => hb.trans (h.2.behind hbad)⟩
  refine ⟨?_, fun pb1 h => h, ?_, ?_, fun pb1 h => ⟨⟨h.1.within, h.1.tidy⟩, fun _ => rfl, h.2.behind⟩⟩
  · intro pb1 str pb' n ⟨hs, hk⟩ he
    obtain ⟨⟨pb2, ok⟩, h2, he⟩ := Option.bind_eq_some_iff.mp he
    cases he
    have hl := (writeLoop_lays str pb1 [] hs.within hs.tidy).1 pb' ok h2
    exact ⟨⟨hl.grows.within, hl.tidy⟩, hk.trans ⟨fun hb => hl.bad.trans hb, hl.grows.bad⟩⟩
  · intro pb1 i str pb' h he
    obtain ⟨dest, hd, rfl⟩ := Option.map_eq_some_iff.mp he
    change StackBuffer.store pb1.dest i str = some dest at hd
    unfold StackBuffer.store StackBuffer.copyTo at hd
    split_ifs at hd
    cases hd
    exact hsame pb1 h _ h.1.within rfl
  · intro pb1 n pb' h he
    obtain ⟨dest, hd, rfl⟩ := Option.map_eq_some_iff.mp he
    change StackBuffer.commit pb1.dest n = some dest at hd
    unfold StackBuffer.commit at hd
    split_ifs at hd with hfit
    cases hd
    exact hsame pb1 h _ hfit rfl

end kept

/-- The flag that a refused piece sets: that of the buffer behind when it goes through the decorator, the
decorator's own when it is formatted in the span. A print callback does both. -/
def Piece.Told (pb : PrettyStack maxSize) : Piece → Prop
  | .mark _ => pb.dest.bad = true
  | .quoted _ => pb.dest.bad = true
  | .integer _ => pb.bad = true
  | .printed _ => pb.Failed

theorem Piece.Told.kept {pb pb' : PrettyStack maxSize} (p : Piece) (h : p.Told pb) (hk : FlagsKept pb pb') :
    p.Told pb' := by
  cases p with
  | mark str => exact hk.behind h
  | quoted str => exact hk.behind h
  | integer n => exact hk.own h
  | printed texts => exact h.imp hk.own hk.behind

/-- The pieces before `p` find room, and `p` does not. -/
structure PrettyBuffer.Refuses (pb : PrettyStack maxSize) (us : List Piece) (p : Piece) : Prop where
  clear : pb.Clear
  outside : pb.cursor.quote = .outside
  room : pb.Room (piecesText us)
  full : ¬ pb.Room (piecesText (us ++ [p]))

/-- An emission takes no flag back and sets that of the first piece that finds no room. -/
structure PrettyTells (ps : List Piece)
    (e : PrettyEmission maxSize → Option (PrettyEmission maxSize × Bool)) : Prop where
  emits : PrettyExact ps e
  kept : ∀ st st' ok, st.buf.Sound → e st = some (st', ok) → FlagsKept st.buf st'.buf
  told : ∀ us p vs, ps = us ++ p :: vs → ∀ st st' ok, st.buf.Sound → st.buf.Refuses us p →
    e st = some (st', ok) → p.Told st'.buf

section tells
variable {ps qs : List Piece} {e k : PrettyEmission maxSize → Option (PrettyEmission maxSize × Bool)}

/-- A piece of a sequence is one of the first part or one of the second. -/
theorem split_piece (us vs : List Piece) (p : Piece) (h : ps ++ qs = us ++ p :: vs) :
    (∃ ws, ps = us ++ p :: ws) ∨ ∃ ws, us = ps ++ ws ∧ qs = ws ++ p :: vs := by
  rcases List.append_eq_append_iff.mp h with ⟨ws, hus, hqs⟩ | ⟨ws, hps, hrest⟩
  · exact .inr ⟨ws, hus, hqs⟩
  · cases ws with
    | nil => exact .inr ⟨[], by rw [hps, List.append_nil, List.append_nil], hrest.symm⟩
    | cons w ws =>
      obtain ⟨rfl, -⟩ := List.cons.inj hrest
      exact .inl ⟨ws, hps⟩

/-- What is left of a sequence after its first part. -/
theorem PrettyBuffer.Refuses.after (he : PrettyExact ps e) (st st1 : PrettyEmission maxSize) (ok : Bool)
    (ws : List Piece) (p : Piece) (hs : st.buf.Sound) (hr : st.buf.Refuses (ps ++ ws) p)
    (h : e st = some (st1, ok)) : ok = true ∧ st1.buf.Sound ∧ st1.buf.Refuses ws p := by
  obtain ⟨hc, hq, hroom, hfull⟩ := hr
  rw [piecesText_append] at hroom
  rw [List.append_assoc, piecesText_append] at hfull
  have hp := (he.emits.prints st hs).1 st1 ok h
  obtain ⟨hok, -, ha, hcur⟩ := hp.fits hc hq hroom.left
  obtain ⟨-, hs1, hc1, hq1, hroom1, -⟩ := he.step h hs hc hq hroom
  exact ⟨hok, hs1, hc1, hq1, hroom1, fun hr => hfull ((Room.next hs.within hp.indentSize ha hcur).mp hr)⟩

theorem PrettyTells.nil : PrettyTells [] fun st : PrettyEmission maxSize => some (st, true) := by
  refine ⟨⟨PrettyEmits.nil, fun _ _ _ _ _ _ => trivial⟩, ?_, ?_⟩
  · intro st st' ok _ h
    cases h
    exact .refl _
  · intro us p vs h
    cases us <;> cases h

theorem PrettyTells.next (he : PrettyTells ps e) (hk : PrettyTells qs k) :
    PrettyTells (ps ++ qs) fun st => andThen (e st) k := by
  have hrest (st st1 st' : PrettyEmission maxSize) (ok1 ok : Bool) (hs : st.buf.Sound) (h1 : e st = some (st1, ok1))
      (h2 : (if ok1 = true then k st1 else some (st1, false)) = some (st', ok)) : FlagsKept st1.buf st'.buf := by
    have hs1 := ((he.emits.emits.prints st hs).1 st1 ok1 h1).sound
    split_ifs at h2
    · exact hk.kept st1 st' ok hs1 h2
    · cases h2
      exact .refl _
  refine ⟨he.emits.next hk.emits, ?_, ?_⟩
  · intro st st' ok hs h
    obtain ⟨⟨st1, ok1⟩, h1, h2⟩ := Option.bind_eq_some_iff.mp h
    exact (he.kept st st1 ok1 hs h1).trans (hrest st st1 st' ok1 ok hs h1 h2)
  · intro us p vs hps st st' ok hs hr h
    obtain ⟨⟨st1, ok1⟩, h1, h2⟩ := Option.bind_eq_some_iff.mp h
    rcases split_piece us vs p hps with ⟨ws, hws⟩ | ⟨ws, rfl, hqs⟩
    · exact (he.told us p ws hws st st1 ok1 hs hr h1).kept p (hrest st st1 st' ok1 ok hs h1 h2)
    · obtain ⟨rfl, hs1, hr1⟩ := hr.after he.emits st st1 ok1 ws p hs h1
      exact hk.told ws p vs hqs st1 st' ok hs1 hr1 h2

theorem PrettyTells.drop (he : PrettyTells ps e) : PrettyTells ps fun st => (e st).map fun r => (r.1, true) := by
  refine ⟨he.emits.drop, ?_, ?_⟩
  · intro st st' ok hs h
    obtain ⟨⟨st1, ok1⟩, h1, h2⟩ := Option.map_eq_some_iff.mp h
    cases h2
    exact he.kept st _ ok1 hs h1
  · intro us p vs hps st st' ok hs hr h
    obtain ⟨⟨st1, ok1⟩, h1, h2⟩ := Option.map_eq_some_iff.mp h
    cases h2
    exact he.told us p vs hps st _ ok1 hs hr h1

theorem PrettyTells.flags {e' : PrettyEmission maxSize → Option (PrettyEmission maxSize × Bool)}
    (he : PrettyTells ps e) (hsame : ∀ st, ∃ emitted, bufs (e' st) = bufs (e ⟨st.buf, emitted⟩)) :
    PrettyTells ps e' := by
  have hrun (st st' : PrettyEmission maxSize) (ok : Bool) (h : e' st = some (st', ok)) :
      ∃ emitted st1, e ⟨st.buf, emitted⟩ = some (st1, ok) ∧ st1.buf = st'.buf := by
    obtain ⟨emitted, heq⟩ := hsame st
    rw [h] at heq
    obtain ⟨⟨st1, ok1⟩, h1, hx⟩ := Option.map_eq_some_iff.mp heq.symm
    obtain ⟨hbuf, rfl⟩ := Prod.mk.inj hx
    exact ⟨emitted, st1, h1, hbuf⟩
  refine ⟨he.emits.flags hsame, ?_, ?_⟩
  · intro st st' ok hs h
    obtain ⟨emitted, st1, h1, hbuf⟩ := hrun st st' ok h
    exact hbuf ▸ he.kept ⟨st.buf, emitted⟩ st1 ok hs h1
  · intro us p vs hps st st' ok hs hr h
    obtain ⟨emitted, st1, h1, hbuf⟩ := hrun st st' ok h
    exact hbuf ▸ he.told us p vs hps ⟨st.buf, emitted⟩ st1 ok hs hr h1

/-- An emission of one piece. -/
theorem PrettyTells.single (p : Piece) (he : PrettyExact [p] e)
    (hk : ∀ st st' ok, st.buf.Sound → e st = some (st', ok) → FlagsKept st.buf st'.buf)
    (ht : ∀ st st' ok, st.buf.Sound → st.buf.Clear → e st = some (st', ok) → st'.buf.Failed →
      p.Told st'.buf) : PrettyTells [p] e := by
  refine ⟨he, hk, ?_⟩
  intro us p' vs hps st st' ok hs hr h
  obtain ⟨rfl, rfl⟩ : us = [] ∧ p = p' := by
    cases us with
    | nil => exact ⟨rfl, (List.cons.inj hps).1⟩
    | cons u us =>
      have hnil := (List.cons.inj hps).2
      cases us <;> cases hnil
  obtain ⟨hc, hq, -, hfull⟩ := hr
  exact ht st st' ok hs hc h (((he.emits.prints st hs).1 st' ok h).misfit hc hq hfull)

/-- A silent piece leaves the decorator's own flag alone. -/
theorem PrettyExact.behind (p : Piece) (hp : p.Silent) (he : PrettyExact [p] e) (st st' : PrettyEmission maxSize)
    (ok : Bool) (hs : st.buf.Sound) (hc : st.buf.Clear) (h : e st = some (st', ok)) (hf : st'.buf.Failed) :
    st'.buf.dest.bad = true := by
  have hsilent : ∀ q ∈ [p], q.Silent := fun q hq => List.mem_singleton.mp hq ▸ hp
  have hown := ((he.emits.prints st hs).1 st' ok h).silent hsilent
  refine hf.resolve_left fun hb => ?_
  rw [hown, hc.own] at hb
  cases hb

theorem write_kept (str : Bytes) (st st' : PrettyEmission maxSize) (ok : Bool) (hs : st.buf.Sound)
    (h : st.write str = some (st', ok)) : st'.buf.Sound ∧ FlagsKept st.buf st'.buf := by
  obtain ⟨⟨pb, n⟩, hb, h⟩ := Option.bind_eq_some_iff.mp h
  cases h
  exact (stable_kept st.buf).write _ str pb n ⟨hs, .refl _⟩ hb

theorem write_prettyTells (str : Bytes) (hne : str ≠ []) (hquote : ch '"' ∉ str) :
    PrettyTells [.mark str] fun st : PrettyEmission maxSize => st.write str := by
  have he := @write_prettyExact maxSize str hne hquote
  exact .single _ he (fun st st' ok hs h => (write_kept str st st' ok hs h).2)
    fun st st' ok hs hc h hf => he.behind (.mark str) trivial st st' ok hs hc h hf

theorem writeEscaped_prettyTells (str : Bytes) :
    PrettyTells [.quoted str] fun st : PrettyEmission maxSize => st.writeEscaped str := by
  have he := @writeEscaped_prettyExact maxSize str
  refine .single _ he ?_ fun st st' ok hs hc h hf => he.behind (.quoted str) trivial st st' ok hs hc h hf
  intro st st' ok hs h
  obtain ⟨⟨pb, n⟩, hb, h⟩ := Option.bind_eq_some_iff.mp h
  cases h
  exact ((stable_kept st.buf).writeEscaped _ str pb n ⟨hs, .refl _⟩ hb).2

/-- An integer is refused by the decorator, which does not tell the buffer behind it. -/
theorem putInteger_prettyTells (n : Integer) :
    PrettyTells [.integer n] fun st : PrettyEmission maxSize => voided (st.putInteger n) := by
  have hrun (st st' : PrettyEmission maxSize) (ok : Bool) (h : voided (st.putInteger n) = some (st', ok)) :
      writeInteger st.buf n = some st'.buf := by
    obtain ⟨st1, h1, h2⟩ := Option.map_eq_some_iff.mp h
    cases h2
    obtain ⟨pb', hb, hst⟩ := Option.bind_eq_some_iff.mp h1
    cases hst
    exact hb
  have hdest (st st' : PrettyEmission maxSize) (h : writeInteger st.buf n = some st'.buf) :
      st'.buf.dest.bad = st.buf.dest.bad := by
    rw [spanView.writeInteger_eq] at h
    obtain ⟨b, -, hb⟩ := Option.map_eq_some_iff.mp h
    rw [← hb]
    rfl
  refine .single _ (putInteger_prettyExact n) ?_ ?_
  · intro st st' ok hs h
    have hb := hrun st st' ok h
    refine ⟨fun hbad => ?_, fun hbad => (hdest st st' hb).trans hbad⟩
    rw [writeInteger_bad st.buf n hbad] at hb
    exact Option.some.inj hb ▸ hbad
  · intro st st' ok hs hc h hf
    refine hf.resolve_right fun hb => ?_
    rw [hdest st st' (hrun st st' ok h), hc.dest] at hb
    cases hb

theorem put_kept (str : Bytes) (st st' : PrettyEmission maxSize) (hs : st.buf.Sound) (h : st.put str = some st') :
    st'.buf.Sound ∧ FlagsKept st.buf st'.buf := by
  obtain ⟨⟨st1, ok⟩, h1, h⟩ := Option.bind_eq_some_iff.mp h
  cases h
  exact write_kept str st st' ok hs h1

theorem print_prettyTells (texts : List Bytes) :
    PrettyTells [.printed texts] fun st : PrettyEmission maxSize => voided
      ((st.put [ch '"']).bind fun st => (printLoop texts st).bind fun st => st.put [ch '"']) := by
  refine .single _ (print_prettyExact texts) ?_ fun _ _ _ _ _ _ hf => hf
  intro st st' ok hs h
  obtain ⟨st3, h3, hx⟩ := Option.map_eq_some_iff.mp h
  cases hx
  obtain ⟨st1, h1, h3⟩ := Option.bind_eq_some_iff.mp h3
  obtain ⟨st2, h2, h3⟩ := Option.bind_eq_some_iff.mp h3
  obtain ⟨hs1, hk1⟩ := put_kept [ch '"'] st st1 hs h1
  obtain ⟨st2', h2', hp⟩ := printLoop_printed texts st1 hs1
  obtain rfl := Option.some.inj (h2.symm.trans h2')
  have hk2 : FlagsKept st1.buf st2.buf := ⟨hp.own, fun hb => hp.behind.trans hb⟩
  exact (hk1.trans hk2).trans (put_kept [ch '"'] st2 st' hp.sound h3).2

theorem separator_prettyTells (first : Bool) :
    PrettyTells (separatorPieces first) fun st : PrettyEmission maxSize => separator first st := by
  cases first with
  | false => exact write_prettyTells [ch ','] (by simp) (by decide)
  | true => exact .nil

/-- A sound decorator's `emit` ends in the state of the separator and the element. -/
theorem emitElement_run (first : Bool) (e : PrettyEmission maxSize → Option (PrettyEmission maxSize))
    (st st1 : PrettyEmission maxSize) (first1 ok1 : Bool) (hg : st.buf.bad = false)
    (h : emitElement e first st = some (st1, first1, ok1)) :
    ∃ ok, andThen (separator first st) (fun st => voided (e st)) = some (st1, ok) := by
  rw [emitElement, bad_buf, hg] at h
  rcases hsep : separator first st with _ | ⟨st2, _ | _⟩
  · simp [hsep] at h
  · simp only [hsep, Bool.false_eq_true, if_false, Option.bind_eq_bind, Option.bind_some] at h
    cases h
    exact ⟨false, rfl⟩
  · cases he : e st2 with
    | none => simp [hsep, he] at h
    | some st3 =>
      simp only [hsep, he, Bool.false_eq_true, if_false, if_true, Option.bind_eq_bind, Option.bind_some] at h
      cases h
      exact ⟨true, by simp [andThen, voided, he]⟩

theorem stream_prettyTells (breaks first : Bool) (rest : Bool → List Piece)
    {e : PrettyEmission maxSize → Option (PrettyEmission maxSize)}
    {k : Bool → PrettyEmission maxSize → Option (PrettyEmission maxSize)} (hsub : rest true ⊆ rest false)
    (he : PrettyTells ps fun st => voided (e st))
    (hk : ∀ first, PrettyTells (rest first) fun st => voided (k first st)) :
    PrettyTells (separatorPieces first ++ (ps ++ rest false)) fun st =>
      voided ((emitElement e first st).bind fun x =>
        if breaks && !x.2.2 then some x.1 else k x.2.1 x.1) := by
  have helement := (separator_prettyTells first).next he
  have hbreak (st st1 st' : PrettyEmission maxSize) (first1 ok1 : Bool) (hs1 : st1.buf.Sound)
      (h : (if breaks && !ok1 then some st1 else k first1 st1) = some st') : FlagsKept st1.buf st'.buf := by
    split_ifs at h
    · cases h
      exact .refl _
    · exact (hk first1).kept st1 st' true hs1 (by simp [voided, h])
  have hsound (st st1 : PrettyEmission maxSize) (first1 ok1 : Bool) (hs : st.buf.Sound)
      (h : emitElement e first st = some (st1, first1, ok1)) : st1.buf.Sound ∧ FlagsKept st.buf st1.buf := by
    refine ⟨((emitElement_pretty first e he.emits.emits st hs).1 st1 first1 ok1 h).1.sound, ?_⟩
    cases hb : st.buf.bad with
    | true =>
      have hstop : emitElement e first st = some (st, first, false) := if_pos hb
      rw [hstop] at h
      cases h
      exact .refl _
    | false =>
      obtain ⟨ok, hrun⟩ := emitElement_run first e st st1 first1 ok1 hb h
      exact helement.kept st st1 ok hs hrun
  have hsplit (st st' : PrettyEmission maxSize) (ok : Bool)
      (h : voided ((emitElement e first st).bind fun x =>
        if breaks && !x.2.2 then some x.1 else k x.2.1 x.1) = some (st', ok)) :
      ∃ st1 first1 ok1, emitElement e first st = some (st1, first1, ok1) ∧
        (if breaks && !ok1 then some st1 else k first1 st1) = some st' := by
    obtain ⟨st2, h2, hx⟩ := Option.map_eq_some_iff.mp h
    cases hx
    obtain ⟨⟨st1, first1, ok1⟩, h1, h2⟩ := Option.bind_eq_some_iff.mp h2
    exact ⟨st1, first1, ok1, h1, h2⟩
  refine ⟨stream_prettyExact breaks first rest hsub he.emits fun first => (hk first).emits, ?_, ?_⟩
  · intro st st' ok hs h
    obtain ⟨st1, first1, ok1, h1, h2⟩ := hsplit st st' ok h
    obtain ⟨hs1, hk1⟩ := hsound st st1 first1 ok1 hs h1
    exact hk1.trans (hbreak st st1 st' first1 ok1 hs1 h2)
  · intro us p vs hps st st' ok hs hr h
    obtain ⟨st1, first1, ok1, h1, h2⟩ := hsplit st st' ok h
    obtain ⟨hs1, -⟩ := hsound st st1 first1 ok1 hs h1
    obtain ⟨okr, hrun⟩ := emitElement_run first e st st1 first1 ok1 hr.clear.own h1
    rw [← List.append_assoc] at hps
    rcases split_piece us vs p hps with ⟨ws, hws⟩ | ⟨ws, rfl, hqs⟩
    · exact (helement.told us p ws hws st st1 okr hs hr hrun).kept p (hbreak st st1 st' first1 ok1 hs1 h2)
    · -- the element found room, so that the callback goes on after it
      obtain ⟨-, -, hr1⟩ := hr.after helement.emits st st1 okr ws p hs hrun
      have hroom : st.buf.Room ((if first then [] else [ch ',']) ++ piecesText ps) := by
        have hleft := hr.room
        rw [piecesText_append] at hleft
        have hall := hleft.left
        rwa [piecesText_append, separatorPieces_text] at hall
      obtain ⟨rfl, rfl⟩ := ((emitElement_pretty first e he.emits.emits st hs).1 st1 first1 ok1 h1).2
        hr.clear hr.outside hroom
      have hcont : k false st1 = some st' := by simpa using h2
      exact (hk false).told ws p vs hqs st1 st' true hs1 hr1 (by simp [voided, hcont])

end tells

/-- The rules that also follow the flags. -/
def tellRules (maxSize : Nat) : EmitRules (PrettyStack maxSize) where
  Emits := PrettyTells
  nil := .nil
  next := PrettyTells.next
  drop := PrettyTells.drop
  flags := PrettyTells.flags
  mark := write_prettyTells
  quoted := writeEscaped_prettyTells
  integer := putInteger_prettyTells
  printed := print_prettyTells
  stream := stream_prettyTells

/-- Where not all pieces find room there is a first that does not. -/
theorem first_refused (pb : PrettyStack maxSize) (ps : List Piece) (hnil : pb.Room [])
    (hfull : ¬ pb.Room (piecesText ps)) :
    ∃ us p vs, ps = us ++ p :: vs ∧ pb.Room (piecesText us) ∧ ¬ pb.Room (piecesText (us ++ [p])) := by
  induction ps using List.reverseRecOn with
  | nil => exact absurd hnil hfull
  | append_singleton ps p ih =>
    by_cases hr : pb.Room (piecesText ps)
    · exact ⟨ps, p, [], rfl, hr, hfull⟩
    · obtain ⟨us, q, vs, rfl, hroom, hnot⟩ := ih hr
      exact ⟨us, q, vs ++ [p], by simp, hroom, hnot⟩

end Espbase.StackJson
