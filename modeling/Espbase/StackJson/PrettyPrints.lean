import Espbase.StackJson.NumberWrite
import Espbase.StackJson.PrettyWrite
import Espbase.StackJson.PrinterWrite
import Espbase.StackJson.SpanView

namespace Espbase.StackJson

open Espbase.Lib StackBuffer

namespace PrettyBuffer
variable {maxSize : Nat}

/-- No failure is on record, neither on the decorator nor behind it. -/
structure Clear (pb : PrettyStack maxSize) : Prop where
  own : pb.bad = false
  dest : pb.dest.bad = false

def Failed (pb : PrettyStack maxSize) : Prop := pb.bad = true ∨ pb.dest.bad = true

structure Sound (pb : PrettyStack maxSize) : Prop where
  within : pb.dest.Within
  tidy : pb.Tidy

/-- The pretty text of `s` at this point fits into the buffer behind. -/
def Room (pb : PrettyStack maxSize) (s : Bytes) : Prop :=
  pb.dest.head + (pretty pb.indentSize pb.cursor s).length ≤ maxSize

/-- From `pb` to `pb'` the compact text `s` was emitted at a place where the scanner is at `q`: its
pretty text has arrived when there was room for it, and a failure is on record otherwise. A `quiet`
emission leaves the decorator's own flag alone. -/
structure Prettied (quiet : Prop) (q : Quote) (s : Bytes) (pb pb' : PrettyStack maxSize) (ok : Bool) :
    Prop where
  sound : pb'.Sound
  indentSize : pb'.indentSize = pb.indentSize
  kept : pb.Failed → pb'.Failed
  silent : quiet → pb'.bad = pb.bad
  fits : pb.Clear → pb.cursor.quote = q → pb.Room s →
    ok = true ∧ pb'.bad = false ∧ Appended pb.dest (pretty pb.indentSize pb.cursor s) pb'.dest ∧
      pb'.cursor = pb.cursor.after s
  misfit : pb.Clear → pb.cursor.quote = q → ¬ pb.Room s → pb'.Failed

section Prettied
variable {quiet quiet' : Prop} {q : Quote} {s t : Bytes} {pb pb1 pb2 : PrettyStack maxSize}
  {ok ok' : Bool}

theorem Prettied.nil (hs : pb.Sound) : Prettied quiet q [] pb pb true := by
  refine ⟨hs, rfl, id, fun _ => rfl, ?_, fun _ _ hm => absurd hs.within hm⟩
  intro hc _ _
  exact ⟨rfl, hc.own, Appended.nil _ hs.within, rfl⟩

/-- A failed decorator that is left alone. -/
theorem Prettied.of_bad (hs : pb.Sound) (hb : pb.bad = true) : Prettied quiet q s pb pb ok := by
  have habsurd (hc : pb.Clear) : False := by
    rw [hc.own] at hb
    cases hb
  exact ⟨hs, rfl, id, fun _ => rfl, fun hc => (habsurd hc).elim, fun hc => (habsurd hc).elim⟩

theorem Prettied.mono (h : Prettied quiet q s pb pb1 ok) (hq : quiet' → quiet) :
    Prettied quiet' q s pb pb1 ok :=
  ⟨h.sound, h.indentSize, h.kept, fun hq' => h.silent (hq hq'), h.fits, h.misfit⟩

/-- The result of a call whose failure is not looked at. -/
theorem Prettied.drop (h : Prettied quiet q s pb pb1 ok) : Prettied quiet q s pb pb1 true :=
  ⟨h.sound, h.indentSize, h.kept, h.silent, fun hc hq hr => ⟨rfl, (h.fits hc hq hr).2⟩, h.misfit⟩

theorem Room.left (h : pb.Room (s ++ t)) : pb.Room s := by
  rw [Room, pretty_append, List.length_append] at h
  rw [Room]
  omega

/-- After the first part there is room for the second exactly when there was for both. -/
theorem Room.next (hw : pb.dest.Within) (hsize : pb1.indentSize = pb.indentSize)
    (ha : Appended pb.dest (pretty pb.indentSize pb.cursor s) pb1.dest)
    (hcur : pb1.cursor = pb.cursor.after s) : pb1.Room t ↔ pb.Room (s ++ t) := by
  have hh := ha.head hw
  rw [Room, Room, pretty_append, List.length_append, hsize, hcur]
  omega

/-- The state in which the second part of a text that fits begins. -/
theorem Prettied.ready (hw : pb.dest.Within) (h : Prettied quiet q s pb pb1 ok) (hc : pb.Clear)
    (hq : pb.cursor.quote = q) (hr : pb.Room (s ++ t))
    (hsettle : Settles pb.indentSize pb.cursor (s ++ t)) :
    pb1.Clear ∧ pb1.cursor.quote = q.after s ∧ pb1.Room t ∧ Settles pb1.indentSize pb1.cursor t := by
  obtain ⟨-, hb, ha, hcur⟩ := h.fits hc hq hr.left
  refine ⟨⟨hb, ha.bad.trans hc.dest⟩, by rw [hcur, Cursor.after_quote, hq],
    (Room.next hw h.indentSize ha hcur).mpr hr, ?_⟩
  rw [h.indentSize, hcur]
  exact ((settles_append _ _ _ _).mp hsettle).2

theorem Prettied.trans (hw : pb.dest.Within) (h : Prettied quiet q s pb pb1 true)
    (k : Prettied quiet (q.after s) t pb1 pb2 ok) : Prettied quiet q (s ++ t) pb pb2 ok := by
  have hnext (hc : pb.Clear) (hq : pb.cursor.quote = q) (hr : pb.Room s) :
      pb1.Clear ∧ pb1.cursor.quote = q.after s ∧ (pb1.Room t ↔ pb.Room (s ++ t)) := by
    obtain ⟨-, hb, ha, hcur⟩ := h.fits hc hq hr
    exact ⟨⟨hb, ha.bad.trans hc.dest⟩, by rw [hcur, Cursor.after_quote, hq],
      Room.next hw h.indentSize ha hcur⟩
  refine ⟨k.sound, k.indentSize.trans h.indentSize, fun hb => k.kept (h.kept hb),
    fun hqu => (k.silent hqu).trans (h.silent hqu), ?_, ?_⟩
  · intro hc hq hr
    obtain ⟨hc1, hq1, hroom⟩ := hnext hc hq hr.left
    obtain ⟨-, -, ha, hcur⟩ := h.fits hc hq hr.left
    obtain ⟨hok, hb2, ha2, hcur2⟩ := k.fits hc1 hq1 (hroom.mpr hr)
    rw [h.indentSize, hcur] at ha2
    refine ⟨hok, hb2, ?_, by rw [hcur2, hcur, Cursor.after_append]⟩
    rw [pretty_append]
    exact ha.trans ha2
  · intro hc hq hm
    by_cases hr : pb.Room s
    · obtain ⟨hc1, hq1, hroom⟩ := hnext hc hq hr
      exact k.misfit hc1 hq1 fun hr2 => hm (hroom.mp hr2)
    · exact k.kept (h.misfit hc hq hr)

/-- Once a part has been lost, it does not matter what follows. -/
theorem Prettied.trans_lost {q' : Quote} {t' : Bytes} {ok'' : Bool} (h : Prettied quiet q s pb pb1 ok)
    (hm : pb.Clear → pb.cursor.quote = q → ¬ pb.Room s) (k : Prettied quiet q' t' pb1 pb2 ok') :
    Prettied quiet q (s ++ t) pb pb2 ok'' :=
  ⟨k.sound, k.indentSize.trans h.indentSize, fun hb => k.kept (h.kept hb),
    fun hqu => (k.silent hqu).trans (h.silent hqu), fun hc hq hr => absurd hr.left (hm hc hq),
    fun hc hq _ => k.kept (h.misfit hc hq (hm hc hq))⟩

/-- A checked call that fails ends the emission. -/
theorem Prettied.stop (h : Prettied quiet q s pb pb1 false) : Prettied quiet q (s ++ t) pb pb1 false :=
  h.trans_lost (fun hc hq hr => Bool.false_ne_true (h.fits hc hq hr).1)
    (Prettied.nil (q := q) h.sound)

end Prettied

/-- An emission of the compact text `s` through the decorator that is part of a state. It returns if
the text finds room and its indentations end. -/
def Prints {α : Type} (buf : α → PrettyStack maxSize) (quiet : Prop) (q : Quote) (s : Bytes)
    (e : α → Option (α × Bool)) : Prop :=
  ∀ st, (buf st).Sound →
    (∀ st' ok, e st = some (st', ok) → Prettied quiet q s (buf st) (buf st') ok) ∧
    ((buf st).Clear → (buf st).cursor.quote = q → (buf st).Room s →
      Settles (buf st).indentSize (buf st).cursor s → (e st).isSome = true)

section Prints
variable {α : Type} {buf : α → PrettyStack maxSize} {quiet quiet' : Prop} {q q' : Quote} {s t : Bytes}
  {e k : α → Option (α × Bool)}

theorem Prints.nil : Prints buf quiet q [] fun st => some (st, true) := by
  refine fun st hs => ⟨?_, fun _ _ _ _ => rfl⟩
  intro st' ok h
  cases h
  exact Prettied.nil hs

theorem Prints.mono (h : Prints buf quiet q s e) (hq : quiet' → quiet) : Prints buf quiet' q s e :=
  fun st hs => ⟨fun st' ok he => ((h st hs).1 st' ok he).mono hq, (h st hs).2⟩

theorem Prints.drop (h : Prints buf quiet q s e) :
    Prints buf quiet q s fun st => (e st).map fun r => (r.1, true) := by
  refine fun st hs => ⟨?_, ?_⟩
  · intro st' ok he
    obtain ⟨⟨st1, ok1⟩, h1, h2⟩ := Option.map_eq_some_iff.mp he
    cases h2
    exact ((h st hs).1 _ ok1 h1).drop
  · intro hc hq hr hset
    rw [Option.isSome_map]
    exact (h st hs).2 hc hq hr hset

/-- What follows runs only after success. -/
theorem Prints.next (he : Prints buf quiet q s e) (hk : Prints buf quiet q' t k) (hq' : q.after s = q') :
    Prints buf quiet q (s ++ t) fun st =>
      (e st).bind fun r => if r.2 = true then k r.1 else some (r.1, false) := by
  subst hq'
  intro st hs
  obtain ⟨hret, hset⟩ := he st hs
  refine ⟨?_, ?_⟩
  · intro st' ok h
    obtain ⟨⟨st1, ok1⟩, h1, h2⟩ := Option.bind_eq_some_iff.mp h
    have hp := hret st1 ok1 h1
    cases ok1 with
    | false =>
      cases h2
      exact hp.stop
    | true => exact hp.trans hs.within ((hk st1 hp.sound).1 st' ok h2)
  · intro hc hq hr hsettle
    obtain ⟨hs1, -⟩ := (settles_append _ _ _ _).mp hsettle
    obtain ⟨⟨st1, ok1⟩, h1⟩ := Option.isSome_iff_exists.mp (hset hc hq hr.left hs1)
    have hp := hret st1 ok1 h1
    obtain rfl := (hp.fits hc hq hr.left).1
    obtain ⟨hc1, hq1, hr1, hs1⟩ := hp.ready hs.within hc hq hr hsettle
    simp only [h1, Option.bind_some, if_true]
    exact (hk st1 hp.sound).2 hc1 hq1 hr1 hs1

end Prints

section writes
variable {quiet : Prop}

theorem prettyByte_ne_nil (indent : UInt8) (k : Cursor) (c : UInt8) : prettyByte indent k c ≠ [] := by
  unfold prettyByte
  split_ifs <;> simp

theorem pretty_ne_nil (indent : UInt8) (k : Cursor) (s : Bytes) (h : s ≠ []) :
    pretty indent k s ≠ [] := by
  cases s with
  | nil => exact absurd rfl h
  | cons c s =>
    rw [pretty]
    exact List.append_ne_nil_of_left_ne_nil (prettyByte_ne_nil indent k c) _

/-- A checked call on a buffer whose result is a number of bytes. -/
def checked {σ : Type} (r : Option (σ × Nat)) : Option (σ × Bool) := r.map fun r => (r.1, r.2 != 0)

/-- The same steps with success reported in another way. -/
theorem Prints.result {α : Type} {buf : α → PrettyStack maxSize} {q : Quote} {s : Bytes}
    {e e' : α → Option (α × Bool)} (h : Prints buf quiet q s e) (hne : s ≠ [])
    (heq : ∀ st, e' st = (e st).map fun r =>
      (r.1, if r.2 then (buf r.1).dest.head - (buf st).dest.head != 0 else false)) :
    Prints buf quiet q s e' := by
  intro st hs
  obtain ⟨hret, hset⟩ := h st hs
  rw [heq st, Option.isSome_map]
  refine ⟨?_, hset⟩
  intro st' ok h'
  obtain ⟨⟨st1, ok1⟩, h1, h2⟩ := Option.map_eq_some_iff.mp h'
  cases h2
  have hp := hret st1 ok1 h1
  refine ⟨hp.sound, hp.indentSize, hp.kept, hp.silent, ?_, hp.misfit⟩
  intro hc hq hr
  obtain ⟨rfl, hrest⟩ := hp.fits hc hq hr
  refine ⟨?_, hrest⟩
  have hlen := List.length_pos_iff.mpr (pretty_ne_nil (buf st).indentSize (buf st).cursor s hne)
  simp only [if_true, bne_iff_ne]
  rw [hrest.2.1.head hs.within, Nat.add_sub_cancel_left]
  exact Nat.ne_of_gt hlen

theorem write_prints (q : Quote) (str : Bytes) (hne : str ≠ []) :
    Prints id quiet q str fun pb : PrettyStack maxSize => checked (Buffer.write pb str) := by
  have hloop : Prints id quiet q str fun pb : PrettyStack maxSize => pb.writeLoop [] str := by
    intro pb hs
    obtain ⟨hret, hset⟩ := writeLoop_lays str pb [] hs.within hs.tidy
    refine ⟨?_, fun _ _ _ hsettle => hset hsettle⟩
    intro pb' ok h
    have hl := hret pb' ok h
    rw [List.nil_append] at hl
    refine ⟨⟨hl.grows.within, hl.tidy⟩, hl.indentSize, ?_, fun _ => hl.bad, ?_,
      fun _ _ hm => .inr (hl.misfit (Nat.lt_of_not_le hm))⟩
    · rintro (hb | hb)
      · exact .inl (hl.bad.trans hb)
      · exact .inr (hl.grows.bad hb)
    · intro hc _ hr
      obtain ⟨hok, ha, hcur⟩ := hl.fits hr
      exact ⟨hok, hl.bad.trans hc.own, ha, hcur⟩
  apply hloop.result hne
  intro pb
  change checked ((pb.writeLoop [] str).bind _) = _
  rcases pb.writeLoop [] str with _ | ⟨pb1, _ | _⟩ <;> rfl

theorem flush_prints (q : Quote) (run : Bytes) :
    Prints id quiet q run fun pb : PrettyStack maxSize => flush pb run := by
  by_cases hr : run = []
  · subst hr
    exact Prints.nil
  · have h : Prints id quiet q run fun pb : PrettyStack maxSize => checked (Buffer.write pb run) :=
      write_prints q run hr
    have heq : (fun pb : PrettyStack maxSize => flush pb run) =
        fun pb => checked (Buffer.write pb run) := by
      funext pb
      rw [flush, if_neg hr]
      cases Buffer.write pb run <;> rfl
    rwa [heq]

theorem inside_next_plain (c : UInt8) (h : needsEscaping c = false) : Quote.inside.next c = .inside := by
  have hc : ¬ Special c := by
    rw [← needsEscaping_iff, h]
    exact Bool.false_ne_true
  rw [Quote.next, if_neg fun he => hc (.inr (.inl he)), if_neg fun he => hc (.inl he)]

/-- The escapes are cut at other places than the decorator looks at, which makes no difference. -/
theorem escapeLoop_prints (str : Bytes) (run : Bytes) (hrun : Quote.inside.after run = .inside) :
    Prints id quiet .inside (run ++ escape str)
      fun pb : PrettyStack maxSize => escapeLoop pb run str := by
  induction str generalizing run with
  | nil =>
    rw [escape_nil, List.append_nil]
    exact flush_prints .inside run
  | cons c str ih =>
    cases hc : needsEscaping c with
    | true =>
      have hseq := escapeSequence_eq c ((needsEscaping_iff c).mp hc)
      have hone : Prints id quiet .inside (escapeSequence c) fun pb : PrettyStack maxSize =>
          checked (Buffer.write pb (escapeSequence c)) :=
        write_prints .inside (escapeSequence c) (escapeSequence_ne_nil c)
      have hinside : Quote.inside.after (escapeSequence c) = .inside := by
        rw [hseq]
        exact (Quote.inside_escapeByte c).1
      have hall := (flush_prints .inside run).next (hone.next (ih [] rfl) hinside) hrun
      have htext : run ++ (escapeSequence c ++ ([] ++ escape str)) =
          run ++ (escapeByte c ++ escape str) := by rw [hseq, List.nil_append]
      rw [htext] at hall
      have heq : (fun pb : PrettyStack maxSize => escapeLoop pb run (c :: str)) = fun pb =>
          (flush pb run).bind fun r => if r.2 = true then
            (checked (Buffer.write r.1 (escapeSequence c))).bind fun r =>
              if r.2 = true then escapeLoop r.1 [] str else some (r.1, false)
          else some (r.1, false) := by
        funext pb
        rw [escapeLoop, if_pos hc]
        apply Option.bind_congr
        intro r _
        obtain ⟨pb1, ok1⟩ := r
        cases ok1 with
        | false => rfl
        | true =>
          simp only [if_true, checked, Option.bind_map]
          apply Option.bind_congr
          intro r _
          by_cases hn : r.2 = 0 <;> simp [hn]
      rw [heq, escape_cons]
      exact hall
    | false =>
      have hplain := escapeByte_plain c fun hs => by
        rw [(needsEscaping_iff c).mpr hs] at hc
        cases hc
      have h := ih (run ++ [c]) (by
        rw [Quote.after_append, hrun]
        exact inside_next_plain c hc)
      have heq : (fun pb : PrettyStack maxSize => escapeLoop pb run (c :: str)) =
          fun pb => escapeLoop pb (run ++ [c]) str := by
        funext pb
        rw [escapeLoop, hc]
        rfl
      rw [heq, escape_cons, hplain, ← List.append_assoc]
      exact h

/-- A string that is sent in pieces. -/
theorem writeQuoted_prints (str : Bytes) :
    Prints id quiet .outside (stringLiteral str)
      fun pb : PrettyStack maxSize => checked (writeQuoted pb str (Buffer.length pb)) := by
  have hquote (q : Quote) :
      Prints id quiet q [ch '"'] fun pb : PrettyStack maxSize => checked (Buffer.write pb [ch '"']) :=
    write_prints q [ch '"'] (by simp)
  have hbody : Prints id quiet .inside ([] ++ escape str)
      fun pb : PrettyStack maxSize => escapeLoop pb [] str := escapeLoop_prints str [] rfl
  have hall := (hquote .outside).next (hbody.next (hquote .inside) (Quote.inside_escape str).1) rfl
  have hlit : [ch '"'] ++ (([] ++ escape str) ++ [ch '"']) = stringLiteral str := rfl
  rw [hlit] at hall
  apply hall.result (by simp [stringLiteral])
  intro pb
  unfold writeQuoted checked
  rcases Buffer.write pb [ch '"'] with _ | ⟨b1, n1⟩
  · rfl
  by_cases hn1 : n1 = 0
  · simp [hn1]
  rcases h2 : escapeLoop b1 [] str with _ | ⟨b2, _ | _⟩
  · simp [hn1, h2]
  · simp [hn1, h2]
  rcases h3 : Buffer.write b2 [ch '"'] with _ | ⟨b3, n3⟩
  · simp [hn1, h2, h3]
  · by_cases hn3 : n3 = 0
    · simp [hn1, h2, h3, hn3]
    · have hok : (n3 != 0) = true := by simp [hn3]
      simp [hn1, h2, h3, hn3, hok]
      rfl

end writes

section spans
variable {quiet : Prop} {pb : PrettyStack maxSize}

/-- The buffer behind with the decorator's flag: what the span writers see. -/
def exposed (pb : PrettyStack maxSize) : StackBuffer maxSize := { pb.dest with bad := pb.bad }

def absorb (pb : PrettyStack maxSize) (b : StackBuffer maxSize) : PrettyStack maxSize :=
  { pb with dest := { b with bad := pb.dest.bad }, bad := b.bad }

/-- The span writers work on the buffer behind, but on the decorator's flag. -/
theorem spanView : SpanView (@exposed maxSize) absorb := by
  have hcopy (pb : PrettyStack maxSize) (i : Nat) (str : Bytes) :
      (pb.dest.copyTo i str).map (fun dest => { pb with dest := dest }) =
        (pb.exposed.copyTo i str).map pb.absorb := by
    simp only [copyTo, exposed]
    split <;> rfl
  refine ⟨fun _ _ => rfl, fun _ => rfl, fun _ _ _ => rfl, fun _ => rfl, fun _ => rfl, fun _ => rfl,
    fun _ _ => rfl, ?_, ?_⟩
  · intro pb i str
    change (StackBuffer.store pb.dest i str).map _ = (StackBuffer.store pb.exposed i str).map _
    unfold StackBuffer.store
    split_ifs with h1 h2 h2
    · exact hcopy pb _ str
    · exact absurd h1 h2
    · exact absurd h2 h1
    · rfl
  · intro pb n
    change (StackBuffer.commit pb.dest n).map _ = (StackBuffer.commit pb.exposed n).map _
    unfold StackBuffer.commit
    split_ifs with h1 h2 h2
    · rfl
    · exact absurd h1 h2
    · exact absurd h2 h1
    · rfl

/-- A text that goes into the span as it is. -/
theorem absorb_prettied {q : Quote} {w : Bytes} {b : StackBuffer maxSize} {ok : Bool} (hs : pb.Sound)
    (hv : pb.cursor.quote = q → Verbatim pb.indentSize pb.cursor w pb.cursor)
    (hgrows : Grows pb.exposed b) (hsilent : quiet → b.bad = pb.bad)
    (hsent : pb.bad = false → Sent pb.exposed [w] b ok) :
    Prettied quiet q w pb (pb.absorb b) ok := by
  have hroom (hq : pb.cursor.quote = q) : pb.Room w ↔ pb.dest.head + w.length ≤ maxSize := by
    rw [Room, (hv hq).text]
  have hfl : [w].flatten = w := List.flatten_singleton
  refine ⟨⟨hgrows.within, hs.tidy⟩, rfl, fun hf => hf.elim (fun hb => .inl (hgrows.bad hb)) .inr, hsilent,
    ?_, ?_⟩
  · intro hc hq hr
    rw [hroom hq] at hr
    cases hsent hc.own with
    | all _ ha =>
      rw [hfl] at ha
      refine ⟨rfl, ha.bad.trans hc.own, ?_, (hv hq).cursor.symm⟩
      rw [(hv hq).text]
      exact ⟨ha.within, ha.view, rfl⟩
    | cut hm _ =>
      rw [hfl] at hm
      exact absurd hr (Nat.not_le_of_lt hm)
  · intro hc hq hm
    rw [hroom hq] at hm
    cases hsent hc.own with
    | all hf _ =>
      rw [hfl] at hf
      exact absurd hf hm
    | cut _ ht => exact .inl ht.bad

theorem signedDecimal_marks (n : Int) (c : UInt8) (hc : c ∈ signedDecimal n) :
    isStructural c = false ∧ isSpace c = false := by
  have hdigit (c : UInt8) (hc : IsDigit c) : isStructural c = false ∧ isSpace c = false := by
    revert c
    decide +kernel
  unfold signedDecimal at hc
  split_ifs at hc
  · rcases List.mem_cons.mp hc with rfl | hc
    · decide
    · exact hdigit c (decimal_isDigit _ c hc)
  · exact hdigit c (decimal_isDigit _ c hc)

/-- Digits and signs mean nothing to the decorator. -/
theorem verbatim_signedDecimal (indent : UInt8) (k : Cursor) (n : Int) (hk : k.quote = .outside) :
    Verbatim indent k (signedDecimal n) k :=
  Verbatim.of_forall hk fun c hc => (signedDecimal_marks n c hc).1

theorem writeInteger_prettied (n : Integer) (hs : pb.Sound) :
    ∃ pb' ok, writeInteger pb n = some pb' ∧
      Prettied False .outside (signedDecimal n.val) pb pb' ok := by
  have hview := spanView.writeInteger_eq pb n
  have hv (hq : pb.cursor.quote = .outside) := verbatim_signedDecimal pb.indentSize pb.cursor n.val hq
  cases hb : pb.bad with
  | true =>
    rw [writeInteger_bad pb.exposed n hb] at hview
    exact ⟨pb, true, hview, Prettied.of_bad hs hb⟩
  | false =>
    obtain ⟨b', ok, he, hsent⟩ := StackBuffer.writeInteger_sent pb.exposed n hs.within hb
    rw [he] at hview
    exact ⟨_, ok, hview, absorb_prettied hs hv hsent.grows nofun fun _ => hsent⟩

/-- The one-shot path of `write_escaped` goes past the decorator. -/
theorem writeOneShot_prettied (str : Bytes) (hs : pb.Sound)
    (hplain : escape str = str) (hf : pb.dest.head + str.length + 2 ≤ maxSize) :
    ∃ pb', writeOneShot pb str = some (pb', str.length + 2) ∧
      Prettied quiet .outside (stringLiteral str) pb pb' true := by
  obtain ⟨b', he, ha⟩ := StackBuffer.writeOneShot_appended pb.exposed str hf
  have hview := spanView.writeOneShot_set pb pb.exposed str
  rw [he] at hview
  have htext : stringLiteral str = [ch '"'] ++ str ++ [ch '"'] := by
    rw [stringLiteral, hplain]
    rfl
  have hsent : Sent pb.exposed [stringLiteral str] b' true := by
    rw [← htext] at ha
    refine .all ?_ (by rwa [List.flatten_singleton])
    rw [List.flatten_singleton, htext]
    simp only [List.length_append, List.length_singleton]
    change pb.dest.head + _ ≤ _
    omega
  refine ⟨pb.absorb b', hview, absorb_prettied hs ?_ ha.grows (fun _ => ha.bad) fun _ => hsent⟩
  intro hq
  have h : Verbatim pb.indentSize _ _ _ := Verbatim.stringLiteral pb.cursor.depth str
  rwa [show pb.cursor = ⟨.outside, pb.cursor.depth⟩ from Cursor.ext hq rfl]

theorem writeEscaped_eq (str : Bytes) (hb : pb.bad = false) :
    writeEscaped pb str =
      if str.any needsEscaping = true then writeQuoted pb str (Buffer.length pb)
      else if str.length + 2 ≤ pb.dest.getWriteSpan then writeOneShot pb str
      else writeQuoted pb str (Buffer.length pb) := by
  have hbad : Buffer.bad pb = false := hb
  rw [writeEscaped, hbad]
  rfl

theorem writeEscaped_prints (str : Bytes) :
    Prints id quiet .outside (stringLiteral str)
      fun pb : PrettyStack maxSize => checked (writeEscaped pb str) := by
  intro pb hs
  have hquoted := @writeQuoted_prints maxSize quiet str pb hs
  simp only [id] at hs hquoted ⊢
  cases hb : pb.bad with
  | true =>
    have hstop : writeEscaped pb str = some (pb, 0) := if_pos hb
    rw [hstop]
    refine ⟨?_, fun _ _ _ _ => rfl⟩
    intro pb' ok h
    cases h
    exact Prettied.of_bad hs hb
  | false =>
    rw [writeEscaped_eq str hb]
    split_ifs with hesc hf
    · exact hquoted
    · have hplain : escape str = str := escape_plain str fun c hc hsp =>
        hesc (List.any_eq_true.mpr ⟨c, hc, (needsEscaping_iff c).mpr hsp⟩)
      have hwithin : pb.dest.head ≤ maxSize := hs.within
      rw [getWriteSpan_eq] at hf
      obtain ⟨pb1, h1, hp⟩ := @writeOneShot_prettied maxSize quiet pb str hs hplain (by omega)
      rw [h1]
      refine ⟨?_, fun _ _ _ _ => rfl⟩
      intro pb' ok h
      cases h
      exact hp
    · exact hquoted

end spans

end PrettyBuffer

end Espbase.StackJson
