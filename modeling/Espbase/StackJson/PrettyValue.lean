import Espbase.StackJson.EmitRules
import Espbase.StackJson.PrettyEmits

namespace Espbase.StackJson

open Espbase.Lib StackBuffer PrettyBuffer

mutual
/-- Whether the value holds neither an integer nor a print callback: nothing in it is formatted in
the span. -/
def Value.unformatted : Value → Bool
  | .int _ => false
  | .stackArray elements => unformattedElements elements
  | .spanArray elements => unformattedElements elements
  | .streamArray _ elements => unformattedElements elements
  | .print _ => false
  | .doc nodes => unformattedNodes nodes
  | _ => true

def unformattedElements : List Value → Bool
  | [] => true
  | v :: elements => v.unformatted && unformattedElements elements

def unformattedNodes : List (NodeInfo × Value) → Bool
  | [] => true
  | (_, v) :: nodes => v.unformatted && unformattedNodes nodes
end

variable {maxSize : Nat}

section print

/-- Outcome of printing the escaped texts into the span. -/
structure Printed (w : Bytes) (pb pb' : PrettyStack maxSize) : Prop where
  sound : pb'.Sound
  indentSize : pb'.indentSize = pb.indentSize
  kept : pb.Failed → pb'.Failed
  own : pb.bad = true → pb'.bad = true
  behind : pb'.dest.bad = pb.dest.bad
  done : pb.Clear → (pb'.bad = false ∧ Appended pb.dest w pb'.dest ∧ pb'.cursor = pb.cursor) ∨
    (pb'.bad = true ∧ maxSize ≤ pb.dest.head + w.length)

theorem vprint_printed (t : Bytes) (pb : PrettyStack maxSize) (hs : pb.Sound) :
    ∃ pb' n, vprint true (some t) pb = some (pb', n) ∧ Printed (escape t) pb pb' := by
  have hview := spanView.vprint_eq true (some t) pb
  cases hb : pb.bad with
  | true =>
    rw [StackBuffer.vprint_bad pb.exposed t hb] at hview
    refine ⟨pb, 0, hview, hs, rfl, id, id, rfl, ?_⟩
    intro hc
    rw [hc.own] at hb
    cases hb
  | false =>
    obtain ⟨b', n, he, hcase⟩ := StackBuffer.vprint_spec pb.exposed t hs.within hb
    rw [he] at hview
    have hgood (h : pb.bad = true) : False := by
      rw [h] at hb
      cases hb
    have hkept : pb.Failed → (pb.absorb b').Failed := fun hf => hf.elim (fun h => (hgood h).elim) .inr
    rcases hcase with ha | ⟨hw, -, hbad, hroom⟩
    · exact ⟨_, n, hview, ⟨ha.within, hs.tidy⟩, rfl, hkept, fun h => (hgood h).elim, rfl, fun hc =>
        .inl ⟨ha.bad.trans hb, ⟨ha.within, ha.view, rfl⟩, rfl⟩⟩
    · exact ⟨_, n, hview, ⟨hw, hs.tidy⟩, rfl, hkept, fun h => (hgood h).elim, rfl, fun _ =>
        .inr ⟨hbad, hroom⟩⟩

theorem printLoop_printed (texts : List Bytes) (st : PrettyEmission maxSize) (hs : st.buf.Sound) :
    ∃ st', printLoop texts st = some st' ∧ Printed (escape texts.flatten) st.buf st'.buf := by
  induction texts generalizing st with
  | nil => exact ⟨st, rfl, hs, rfl, id, id, rfl, fun hc => .inl ⟨hc.own, Appended.nil _ hs.within, rfl⟩⟩
  | cons t texts ih =>
    obtain ⟨pb1, n, h1, hp1⟩ := vprint_printed t st.buf hs
    obtain ⟨st2, h2, hp2⟩ := ih { st with buf := pb1 } hp1.sound
    have hesc : escape (t :: texts).flatten = escape t ++ escape texts.flatten := by
      rw [List.flatten_cons, escape_append]
    refine ⟨st2, by simp [printLoop, h1, h2], hp2.sound, hp2.indentSize.trans hp1.indentSize,
      fun hf => hp2.kept (hp1.kept hf), fun hb => hp2.own (hp1.own hb), hp2.behind.trans hp1.behind, ?_⟩
    intro hc
    rw [hesc, List.length_append]
    rcases hp1.done hc with ⟨hb1, ha1, hcur1⟩ | ⟨hb1, hroom⟩
    · have hh := ha1.head hs.within
      rcases hp2.done ⟨hb1, ha1.bad.trans hc.dest⟩ with ⟨hb2, ha2, hcur2⟩ | ⟨hb2, hroom⟩
      · exact .inl ⟨hb2, ha1.trans ha2, hcur2.trans hcur1⟩
      · change maxSize ≤ pb1.dest.head + _ at hroom
        exact .inr ⟨hb2, by omega⟩
    · exact .inr ⟨hp2.own hb1, by omega⟩

/-- Between its quotes the escaped text goes past the decorator, which takes the closing quote for
the next byte of the string. -/
theorem printLoop_prints (texts : List Bytes) :
    Prints Emission.buf False .inside (escape texts.flatten ++ [ch '"'])
      fun st : PrettyEmission maxSize => ((printLoop texts st).bind fun st => st.put [ch '"']).map fun st => (st, true) := by
  intro st hs
  obtain ⟨st1, h1, hp1⟩ := printLoop_printed texts st hs
  have hclose : Prints Emission.buf False .inside [ch '"']
      fun st : PrettyEmission maxSize => (st.put [ch '"']).map fun st => (st, true) :=
    put_prints [ch '"'] (by simp)
  obtain ⟨hret, hset⟩ := hclose st1 hp1.sound
  obtain ⟨hafter, hlit⟩ := Quote.inside_escape texts.flatten
  have hverb (hq : st.buf.cursor.quote = .inside) :
      Verbatim st.buf.indentSize st.buf.cursor (escape texts.flatten) st.buf.cursor := by
    have h : Verbatim st.buf.indentSize st.buf.cursor (escape texts.flatten) _ :=
      Verbatim.literal (by rw [hq, hlit])
    rwa [show (⟨st.buf.cursor.quote.after (escape texts.flatten), st.buf.cursor.depth⟩ : Cursor) =
      st.buf.cursor from Cursor.ext (by rw [hq, hafter]) rfl] at h
  by_cases hdone : st.buf.Clear → st1.buf.bad = false ∧
      Appended st.buf.dest (escape texts.flatten) st1.buf.dest ∧ st1.buf.cursor = st.buf.cursor
  · have hall : Prettied False .inside (escape texts.flatten) st.buf st1.buf true := by
      refine ⟨hp1.sound, hp1.indentSize, hp1.kept, nofun, ?_, ?_⟩
      · intro hc hq _
        obtain ⟨hb, ha, hcur⟩ := hdone hc
        exact ⟨rfl, hb, by rwa [(hverb hq).text], by rw [hcur, (hverb hq).cursor]⟩
      · intro hc hq hm
        have hh := (hdone hc).2.1.head hs.within
        have hin : st1.buf.dest.head ≤ maxSize := hp1.sound.within
        rw [Room, (hverb hq).text] at hm
        omega
    simp only [h1, Option.bind_some]
    refine ⟨fun st' ok h => hall.trans hs.within (by
      rw [hafter]
      exact hret st' ok h), ?_⟩
    intro hc hq hr hsettle
    obtain ⟨hc1, hq1, hr1, hs1⟩ := hall.ready hs.within hc hq hr hsettle
    exact hset hc1 (by rw [hq1, hafter]) hr1 hs1
  · obtain ⟨hc, hnot⟩ := Classical.not_imp.mp hdone
    obtain ⟨hb1, hroom⟩ := (hp1.done hc).resolve_left hnot
    have hlost (hq : st.buf.cursor.quote = .inside) :
        ¬ st.buf.Room (escape texts.flatten ++ [ch '"']) := by
      have hlen := List.length_pos_iff.mpr
        (pretty_ne_nil st.buf.indentSize st.buf.cursor [ch '"'] (by simp))
      rw [Room, pretty_append, List.length_append, (hverb hq).text, (hverb hq).cursor]
      omega
    simp only [h1, Option.bind_some]
    refine ⟨?_, fun _ hq hr => absurd hr (hlost hq)⟩
    intro st' ok h
    have hp2 := hret st' ok h
    exact ⟨hp2.sound, hp2.indentSize.trans hp1.indentSize, fun hf => hp2.kept (hp1.kept hf), nofun,
      fun _ hq hr => absurd hr (hlost hq), fun _ _ _ => hp2.kept (.inl hb1)⟩

theorem print_prettyPuts (texts : List Bytes) :
    PrettyPuts False (stringLiteral texts.flatten) fun st : PrettyEmission maxSize =>
      (st.put [ch '"']).bind fun st => (printLoop texts st).bind fun st => st.put [ch '"'] := by
  have hopen : Prints Emission.buf False .outside [ch '"'] fun st : PrettyEmission maxSize =>
      (st.put [ch '"']).map fun st => (st, true) := put_prints [ch '"'] (by simp)
  have h := hopen.next (printLoop_prints texts) rfl
  refine ⟨(Solid.stringLiteral _).closed, ?_⟩
  have heq : (fun st : PrettyEmission maxSize => ((st.put [ch '"']).bind fun st =>
      (printLoop texts st).bind fun st => st.put [ch '"']).map fun st => (st, true)) =
      fun st => ((st.put [ch '"']).map fun st => (st, true)).bind fun r => if r.2 = true then
        ((printLoop texts r.1).bind fun st => st.put [ch '"']).map fun st => (st, true)
      else some (r.1, false) := by
    funext st
    cases st.put [ch '"'] <;> rfl
  rw [heq]
  exact h

end print

section stream
variable {quiet : Prop} {s : Bytes}

theorem bad_buf (st : PrettyEmission maxSize) : Buffer.bad st.buf = st.buf.bad := rfl

/-- One `emit` of a streaming callback. Where the element fits, it reports success. -/
theorem emitElement_pretty (first : Bool)
    (e : PrettyEmission maxSize → Option (PrettyEmission maxSize)) (he : PrettyPuts quiet s e)
    (st : PrettyEmission maxSize) (hs : st.buf.Sound) :
    (∀ st1 first1 ok, emitElement e first st = some (st1, first1, ok) →
      Prettied quiet .outside ((if first then [] else [ch ',']) ++ s) st.buf st1.buf true ∧
      (st.buf.Clear → st.buf.cursor.quote = .outside →
        st.buf.Room ((if first then [] else [ch ',']) ++ s) → first1 = false ∧ ok = true)) ∧
    (st.buf.Clear → st.buf.cursor.quote = .outside →
      st.buf.Room ((if first then [] else [ch ',']) ++ s) →
      Settles st.buf.indentSize st.buf.cursor ((if first then [] else [ch ',']) ++ s) →
      (emitElement e first st).isSome = true) := by
  have hall := (separator_prettyEmits first).andThen he
  obtain ⟨hret, hset⟩ := hall.prints st hs
  have heq (hb : st.buf.bad = false) : emitElement e first st =
      (andThen (separator first st) fun st => (e st).map fun st => (st, true)).map fun r =>
        (r.1, false, if r.2 then !Buffer.bad r.1.buf else false) := by
    rw [emitElement, bad_buf, hb]
    rcases separator first st with _ | ⟨st1, _ | _⟩
    · rfl
    · rfl
    · simp only [andThen, Option.bind_eq_bind, Option.bind_some, if_true]
      cases e st1 <;> rfl
  cases hb : st.buf.bad with
  | true =>
    have hstop : emitElement e first st = some (st, first, false) := if_pos hb
    rw [hstop]
    refine ⟨?_, fun _ _ _ _ => rfl⟩
    intro st1 first1 ok h
    cases h
    exact ⟨Prettied.of_bad hs hb, fun hc => absurd (hc.own.symm.trans hb) (by simp)⟩
  | false =>
    rw [heq hb, Option.isSome_map]
    refine ⟨?_, hset⟩
    intro st1 first1 ok h
    obtain ⟨⟨st2, ok2⟩, h2, h3⟩ := Option.map_eq_some_iff.mp h
    cases h3
    have hp := hret st2 ok2 h2
    refine ⟨hp.drop, fun hc hq hr => ⟨rfl, ?_⟩⟩
    obtain ⟨rfl, hgood, -⟩ := hp.fits hc hq hr
    simp [bad_buf, hgood]

/-- A streaming callback that goes on with `k` after its first element. -/
theorem streamStep_pretty (breaks first : Bool) (rest : Bool → Bytes)
    (e : PrettyEmission maxSize → Option (PrettyEmission maxSize))
    (k : Bool → PrettyEmission maxSize → Option (PrettyEmission maxSize)) (he : PrettyPuts quiet s e)
    (hk : ∀ first, PrettyPuts quiet (rest first) (k first)) :
    PrettyPuts quiet (((if first then [] else [ch ',']) ++ s) ++ rest false) fun st =>
      (emitElement e first st).bind fun x =>
        if breaks && !x.2.2 then some x.1 else k x.2.1 x.1 := by
  have hclosed := ((separator_prettyEmits first).andThen he).closed
  refine ⟨by rw [Quote.after_append, hclosed, (hk false).closed], ?_⟩
  intro st hs
  obtain ⟨hret, hset⟩ := emitElement_pretty first e he st hs
  refine ⟨?_, ?_⟩
  · intro st' ok h
    obtain ⟨st2, h1, h2⟩ := Option.map_eq_some_iff.mp h
    cases h2
    obtain ⟨⟨st1, first1, ok1⟩, h3, h4⟩ := Option.bind_eq_some_iff.mp h1
    obtain ⟨hp, hfine⟩ := hret st1 first1 ok1 h3
    dsimp only at h4
    split_ifs at h4 with hlast
    · cases h4
      refine hp.trans_lost ?_ (Prettied.nil (q := .outside) hp.sound)
      intro hc hq hr
      simp [(hfine hc hq hr).2] at hlast
    · have hk1 := ((hk first1).prints st1 hp.sound).1 st' true (by rw [h4]; rfl)
      by_cases hf : first1 = false
      · subst hf
        exact hp.trans hs.within (by rwa [hclosed])
      · exact hp.trans_lost (fun hc hq hr => hf (hfine hc hq hr).1) hk1
  · intro hc hq hr hsettle
    obtain ⟨hs1, -⟩ := (settles_append _ _ _ _).mp hsettle
    obtain ⟨⟨st1, first1, ok1⟩, h1⟩ := Option.isSome_iff_exists.mp (hset hc hq hr.left hs1)
    obtain ⟨hp, hfine⟩ := hret st1 first1 ok1 h1
    obtain ⟨rfl, rfl⟩ := hfine hc hq hr.left
    obtain ⟨hc1, hq1, hr1, hs1⟩ := hp.ready hs.within hc hq hr hsettle
    rw [hclosed] at hq1
    simpa [h1] using ((hk false).prints st1 hp.sound).2 hc1 hq1 hr1 hs1

end stream

section exact

/-- Nothing is formatted in the span. -/
def Piece.Silent : Piece → Prop
  | .integer _ => False
  | .printed _ => False
  | _ => True

/-- An emission of the pieces between tokens; with room for its text, it returns only if the indentations
end. -/
structure PrettyExact (ps : List Piece)
    (e : PrettyEmission maxSize → Option (PrettyEmission maxSize × Bool)) : Prop where
  emits : PrettyEmits (∀ p ∈ ps, p.Silent) (piecesText ps) e
  settles : ∀ st, st.buf.Sound → st.buf.Clear → st.buf.cursor.quote = .outside →
    st.buf.Room (piecesText ps) → (e st).isSome = true →
    Settles st.buf.indentSize st.buf.cursor (piecesText ps)

variable {ps qs : List Piece}

/-- The state after the first part of a text that fits. -/
theorem PrettyExact.step {e : PrettyEmission maxSize → Option (PrettyEmission maxSize × Bool)}
    (he : PrettyExact ps e) {st st1 : PrettyEmission maxSize} {ok : Bool} {t : Bytes}
    (h : e st = some (st1, ok)) (hs : st.buf.Sound) (hc : st.buf.Clear)
    (hq : st.buf.cursor.quote = .outside) (hr : st.buf.Room (piecesText ps ++ t)) :
    ok = true ∧ st1.buf.Sound ∧ st1.buf.Clear ∧ st1.buf.cursor.quote = .outside ∧ st1.buf.Room t ∧
      st1.buf.indentSize = st.buf.indentSize ∧ st1.buf.cursor = st.buf.cursor.after (piecesText ps) := by
  obtain ⟨hret, -⟩ := he.emits.prints st hs
  have hp := hret st1 ok h
  obtain ⟨hok, hb, ha, hcur⟩ := hp.fits hc hq hr.left
  refine ⟨hok, hp.sound, ⟨hb, ha.bad.trans hc.dest⟩, ?_, (Room.next hs.within hp.indentSize ha hcur).mpr hr,
    hp.indentSize, hcur⟩
  rw [hcur, Cursor.after_quote, hq, he.emits.closed]

theorem PrettyExact.next {e k : PrettyEmission maxSize → Option (PrettyEmission maxSize × Bool)}
    (he : PrettyExact ps e) (hk : PrettyExact qs k) :
    PrettyExact (ps ++ qs) fun st => andThen (e st) k := by
  refine ⟨?_, ?_⟩
  · rw [piecesText_append]
    exact (he.emits.mono fun h p hp => h p (List.mem_append_left _ hp)).andThen
      (hk.emits.mono fun h p hp => h p (List.mem_append_right _ hp))
  · intro st hs hc hq hr hsome
    rw [piecesText_append] at hr ⊢
    cases h1 : e st with
    | none => simp [andThen, h1] at hsome
    | some r =>
      obtain ⟨st1, ok⟩ := r
      obtain ⟨rfl, hs1, hc1, hq1, hr1, hsize, hcur⟩ := he.step h1 hs hc hq hr
      have hfirst := he.settles st hs hc hq hr.left (by simp [h1])
      have hrest := hk.settles st1 hs1 hc1 hq1 hr1 (by simpa [andThen, h1] using hsome)
      rw [hsize, hcur] at hrest
      exact (settles_append _ _ _ _).mpr ⟨hfirst, hrest⟩

theorem PrettyExact.drop {e : PrettyEmission maxSize → Option (PrettyEmission maxSize × Bool)}
    (he : PrettyExact ps e) : PrettyExact ps fun st => (e st).map fun r => (r.1, true) := by
  refine ⟨⟨he.emits.closed, he.emits.prints.drop⟩, ?_⟩
  intro st hs hc hq hr hsome
  exact he.settles st hs hc hq hr (by simpa using hsome)

/-- The flags of the nodes do not matter. -/
theorem PrettyExact.flags {e e' : PrettyEmission maxSize → Option (PrettyEmission maxSize × Bool)}
    (he : PrettyExact ps e) (hsame : ∀ st, ∃ emitted, bufs (e' st) = bufs (e ⟨st.buf, emitted⟩)) :
    PrettyExact ps e' := by
  have hsome (st : PrettyEmission maxSize) (emitted : Nat → Bool)
      (heq : bufs (e' st) = bufs (e ⟨st.buf, emitted⟩)) :
      (e' st).isSome = (e ⟨st.buf, emitted⟩).isSome := by
    simpa [bufs] using congrArg Option.isSome heq
  refine ⟨⟨he.emits.closed, ?_⟩, ?_⟩
  · intro st hs
    obtain ⟨emitted, heq⟩ := hsame st
    obtain ⟨hret, hset⟩ := he.emits.prints ⟨st.buf, emitted⟩ hs
    refine ⟨?_, fun hc hq hr h => (hsome st emitted heq).trans (hset hc hq hr h)⟩
    intro st' ok h
    rw [h] at heq
    obtain ⟨⟨st1, ok1⟩, h1, hx⟩ := Option.map_eq_some_iff.mp heq.symm
    obtain ⟨hbuf, rfl⟩ := Prod.mk.inj hx
    have hp := hret st1 ok1 h1
    rwa [hbuf] at hp
  · intro st hs hc hq hr h
    obtain ⟨emitted, heq⟩ := hsame st
    exact he.settles ⟨st.buf, emitted⟩ hs hc hq hr ((hsome st emitted heq).symm.trans h)

/-- A text that the decorator leaves as it is has no indentations. -/
theorem PrettyExact.of_verbatim {e : PrettyEmission maxSize → Option (PrettyEmission maxSize × Bool)}
    (he : PrettyEmits (∀ p ∈ ps, p.Silent) (piecesText ps) e)
    (hv : ∀ indent k, k.quote = .outside → Settles indent k (piecesText ps)) : PrettyExact ps e :=
  ⟨he, fun _ _ _ hq _ _ => hv _ _ hq⟩

theorem outside_after_unquoted (str : Bytes) (h : ch '"' ∉ str) : Quote.outside.after str = .outside := by
  induction str with
  | nil => rfl
  | cons c str ih =>
    obtain ⟨hc, hrest⟩ := not_or.mp (mt List.mem_cons.mpr h)
    have hnext : Quote.outside.next c = .outside := by simp [Quote.next, Ne.symm hc]
    rw [Quote.after_cons, hnext, ih hrest]

theorem settles_stringLiteral (indent : UInt8) (k : Cursor) (s : Bytes) (hk : k.quote = .outside) :
    Settles indent k (stringLiteral s) := by
  obtain ⟨q, d⟩ := k
  obtain rfl : q = .outside := hk
  exact (Verbatim.stringLiteral d s).settles

theorem write_prettyExact (str : Bytes) (hne : str ≠ []) (hquote : ch '"' ∉ str) :
    PrettyExact [.mark str] fun st : PrettyEmission maxSize => st.write str := by
  have htext : piecesText [.mark str] = str := by simp [piecesText, Piece.chunks]
  refine ⟨?_, ?_⟩
  · rw [htext]
    exact write_prettyEmits str hne (outside_after_unquoted str hquote)
  · intro st hs hc hq hr hsome
    rw [htext] at hr ⊢
    apply writeLoop_settles str st.buf [] hs.within hs.tidy hr
    have hwrite : (Buffer.write st.buf str).isSome = true := by
      cases h : Buffer.write st.buf str with
      | none => simp [Emission.write, h] at hsome
      | some r => rfl
    change ((st.buf.writeLoop [] str).bind _).isSome = true at hwrite
    cases h : st.buf.writeLoop [] str with
    | none => simp [h] at hwrite
    | some r => rfl

theorem writeEscaped_prettyExact (str : Bytes) :
    PrettyExact [.quoted str] fun st : PrettyEmission maxSize => st.writeEscaped str := by
  have htext : piecesText [.quoted str] = stringLiteral str := by
    simp [piecesText, Piece.chunks, stringChunks_flatten]
  apply PrettyExact.of_verbatim
  · rw [htext]
    exact writeEscaped_prettyEmits str
  · rw [htext]
    exact fun indent k hk => settles_stringLiteral indent k str hk

theorem putInteger_prettyExact (n : Integer) :
    PrettyExact [.integer n] fun st : PrettyEmission maxSize => voided (st.putInteger n) := by
  have htext : piecesText [.integer n] = signedDecimal n.val := by simp [piecesText, Piece.chunks]
  have hloud : ¬ ∀ p ∈ [Piece.integer n], p.Silent := fun h => h _ (List.mem_singleton.mpr rfl)
  apply PrettyExact.of_verbatim
  · rw [htext]
    exact PrettyEmits.mono (putInteger_prettyPuts n) hloud
  · rw [htext]
    exact fun indent k hk => (verbatim_signedDecimal indent k n.val hk).settles

theorem print_prettyExact (texts : List Bytes) :
    PrettyExact [.printed texts] fun st : PrettyEmission maxSize => voided
      ((st.put [ch '"']).bind fun st => (printLoop texts st).bind fun st => st.put [ch '"']) := by
  have htext : piecesText [.printed texts] = stringLiteral texts.flatten := by
    rw [piecesText, List.flatMap_singleton, Piece.chunks, printChunks_flatten]
  have hloud : ¬ ∀ p ∈ [Piece.printed texts], p.Silent := fun h => h _ (List.mem_singleton.mpr rfl)
  apply PrettyExact.of_verbatim
  · rw [htext]
    exact PrettyEmits.mono (print_prettyPuts texts) hloud
  · rw [htext]
    exact fun indent k hk => settles_stringLiteral indent k _ hk

theorem separatorPieces_text (first : Bool) :
    piecesText (separatorPieces first) = if first then [] else [ch ','] := by
  cases first <;> rfl

theorem separator_prettyExact (first : Bool) :
    PrettyExact (separatorPieces first) fun st : PrettyEmission maxSize => separator first st := by
  cases first with
  | false => exact write_prettyExact [ch ','] (by simp) (by decide)
  | true => exact ⟨PrettyEmits.nil, fun _ _ _ _ _ _ => trivial⟩

/-- A sound decorator's `emit` is the separator and the element. -/
theorem emitElement_isSome (first : Bool) (e : PrettyEmission maxSize → Option (PrettyEmission maxSize))
    (st : PrettyEmission maxSize) (hg : st.buf.bad = false)
    (h : (emitElement e first st).isSome = true) :
    (andThen (separator first st) fun st => voided (e st)).isSome = true := by
  rw [emitElement, bad_buf, hg] at h
  rcases hsep : separator first st with _ | ⟨st1, _ | _⟩
  · simp [hsep] at h
  · rfl
  · cases he : e st1 with
    | none => simp [hsep, he] at h
    | some st2 => simp [andThen, voided, he]

theorem stream_prettyExact (breaks first : Bool) (rest : Bool → List Piece)
    {e : PrettyEmission maxSize → Option (PrettyEmission maxSize)}
    {k : Bool → PrettyEmission maxSize → Option (PrettyEmission maxSize)} (hsub : rest true ⊆ rest false)
    (he : PrettyExact ps fun st => voided (e st))
    (hk : ∀ first, PrettyExact (rest first) fun st => voided (k first st)) :
    PrettyExact (separatorPieces first ++ (ps ++ rest false)) fun st =>
      voided ((emitElement e first st).bind fun x =>
        if breaks && !x.2.2 then some x.1 else k x.2.1 x.1) := by
  have helement := (separator_prettyExact first).next he
  have htext : piecesText (separatorPieces first ++ (ps ++ rest false)) =
      piecesText (separatorPieces first ++ ps) ++ piecesText (rest false) := by
    rw [← List.append_assoc, piecesText_append]
  refine ⟨?_, ?_⟩
  · rw [htext, piecesText_append, separatorPieces_text]
    refine streamStep_pretty breaks first (fun first => piecesText (rest first)) e k
      (he.emits.mono fun h p hp => h p (by simp [hp])) fun first => ?_
    apply (hk first).emits.mono
    intro h p hp
    apply h p
    have hin : p ∈ rest false := by
      cases first with
      | false => exact hp
      | true => exact hsub hp
    simp [hin]
  · intro st hs hc hq hr hsome
    rw [htext] at hr ⊢
    cases h1 : emitElement e first st with
    | none => simp [voided, h1] at hsome
    | some x =>
      obtain ⟨st1, first1, ok1⟩ := x
      have hfirst := helement.settles st hs hc hq hr.left
        (emitElement_isSome first e st hc.own (by simp [h1]))
      obtain ⟨hret, -⟩ := emitElement_pretty first e he.emits st hs
      obtain ⟨hp, hfine⟩ := hret st1 first1 ok1 h1
      rw [piecesText_append, separatorPieces_text] at hr hfirst ⊢
      obtain ⟨rfl, rfl⟩ := hfine hc hq hr.left
      obtain ⟨-, hb, ha, hcur⟩ := hp.fits hc hq hr.left
      have hclosed : st1.buf.cursor.quote = .outside := by
        have := helement.emits.closed
        rw [piecesText_append, separatorPieces_text] at this
        rw [hcur, Cursor.after_quote, hq, this]
      have hrest := (hk false).settles st1 hp.sound ⟨hb, ha.bad.trans hc.dest⟩ hclosed
        ((Room.next hs.within hp.indentSize ha hcur).mpr hr) (by simpa [voided, h1] using hsome)
      rw [hp.indentSize, hcur] at hrest
      exact (settles_append _ _ _ _).mpr ⟨hfirst, hrest⟩

/-- The rules for a decorated stack buffer. -/
def prettyRules (maxSize : Nat) : EmitRules (PrettyStack maxSize) where
  Emits := PrettyExact
  nil := ⟨PrettyEmits.nil, fun _ _ _ _ _ _ => trivial⟩
  next := PrettyExact.next
  drop := PrettyExact.drop
  flags := PrettyExact.flags
  mark := write_prettyExact
  quoted := writeEscaped_prettyExact
  integer := putInteger_prettyExact
  printed := print_prettyExact
  stream := stream_prettyExact

end exact

mutual
/-- A value of which nothing is formatted in the span has silent pieces only. -/
theorem Value.unformatted_pieces : (v : Value) → v.Valid → v.unformatted = true → ∀ p ∈ v.pieces, p.Silent
  | .null, _, _ => by simp [Value.pieces, Piece.Silent]
  | .bool _, _, _ => by simp [Value.pieces, Piece.Silent]
  | .int _, _, hu => by cases hu
  | .str _, _, _ => by simp [Value.pieces, Piece.Silent]
  | .cstr none, _, _ => by simp [Value.pieces, Piece.Silent]
  | .cstr (some _), _, _ => by simp [Value.pieces, Piece.Silent]
  | .stackArray elements, h, hu =>
    forall_arrayPieces (fun _ => trivial) _ (elementPieces_unformatted elements h hu)
  | .spanArray elements, h, hu =>
    forall_arrayPieces (fun _ => trivial) _ (elementPieces_unformatted elements h hu)
  | .streamArray _ elements, h, hu =>
    forall_arrayPieces (fun _ => trivial) _ (elementPieces_unformatted elements h hu)
  | .print _, _, hu => by cases hu
  | .doc nodes, h, hu =>
    forall_documentPieces (fun _ => trivial) (fun _ => trivial) nodes
      (fun p hp => h.1.paths p.1 (List.mem_map.mpr ⟨p, hp, rfl⟩)) (nodePieces_unformatted nodes h.2 hu)

theorem elementPieces_unformatted : (elements : List Value) → ValidElements elements →
    unformattedElements elements = true → ∀ ps ∈ elementPieces elements, ∀ p ∈ ps, p.Silent
  | [], _, _ => by simp [elementPieces]
  | v :: elements, h, hu => by
    obtain ⟨hv, hrest⟩ := (Bool.and_eq_true _ _).mp hu
    intro ps hps
    rcases List.mem_cons.mp hps with rfl | hps
    · exact v.unformatted_pieces h.1 hv
    · exact elementPieces_unformatted elements h.2 hrest ps hps

theorem nodePieces_unformatted : (nodes : List (NodeInfo × Value)) → ValidNodes nodes →
    unformattedNodes nodes = true → ∀ q ∈ nodes, ∀ p ∈ q.2.pieces, p.Silent
  | [], _, _ => by simp
  | (_, v) :: nodes, h, hu => by
    obtain ⟨hv, hrest⟩ := (Bool.and_eq_true _ _).mp hu
    intro q hq
    rcases List.mem_cons.mp hq with rfl | hq
    · exact v.unformatted_pieces h.1 hv
    · exact nodePieces_unformatted nodes h.2 hrest q hq
end

end Espbase.StackJson
