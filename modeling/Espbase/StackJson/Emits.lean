import Espbase.StackJson.Items
import Espbase.StackJson.EscapedWrite

namespace Espbase.StackJson

open Espbase.Lib StackBuffer

/-- An emission into a stack buffer. -/
abbrev StackEmission (maxSize : Nat) := Emission (StackBuffer maxSize)

variable {maxSize : Nat}

/-- From `st` to `st'` the writes `ws` were emitted: all of them when they fit, and otherwise the
buffer has failed and, when `clean`, starts with the writes up to the first that did not fit. On a
buffer that had failed before nothing is taken back. Only the flags of `ids` have changed. -/
structure Emitted (clean : Prop) (ids : List Nat) (ws : List Bytes)
    (st st' : StackEmission maxSize) (ok : Bool) : Prop where
  within : st.buf.Within
  grows : Grows st.buf st'.buf
  flags : ∀ id ∉ ids, st'.emitted id = st.emitted id
  fits : st.buf.bad = false → st.buf.head + ws.flatten.length ≤ maxSize →
    ok = true ∧ Appended st.buf ws.flatten st'.buf
  misfit : st.buf.bad = false → maxSize < st.buf.head + ws.flatten.length →
    st'.buf.bad = true ∧
      (clean → st.buf.view ++ fitted (maxSize - st.buf.head) ws <+: st'.buf.view)

section Emitted
variable {clean clean' : Prop} {ids ids' : List Nat} {us ws : List Bytes} {ok ok' : Bool}
  {st st1 st2 : StackEmission maxSize}

theorem Emitted.mono (h : Emitted clean ids ws st st1 ok) (hc : clean' → clean)
    (hi : ids ⊆ ids') : Emitted clean' ids' ws st st1 ok :=
  ⟨h.within, h.grows, fun id hid => h.flags id fun hm => hid (hi hm), h.fits, fun hg hl =>
    ⟨(h.misfit hg hl).1, fun c => (h.misfit hg hl).2 (hc c)⟩⟩

theorem Emitted.good (h : Emitted clean ids us st st1 ok) (hg : st.buf.bad = false)
    (hf : st.buf.head + us.flatten.length ≤ maxSize) : st1.buf.bad = false :=
  (h.fits hg hf).2.bad.trans hg

/-- On a failed buffer only growth is asked for. -/
theorem Emitted.of_bad (hw : st.buf.Within) (hb : st.buf.bad = true) (hgrows : Grows st.buf st1.buf)
    (hflags : ∀ id ∉ ids, st1.emitted id = st.emitted id) :
    Emitted clean ids ws st st1 ok := by
  have absurd_good (hg : st.buf.bad = false) : False := by
    rw [hb] at hg
    cases hg
  exact ⟨hw, hgrows, hflags, fun hg => (absurd_good hg).elim, fun hg => (absurd_good hg).elim⟩

theorem Emitted.nil (hw : st.buf.Within) : Emitted clean ids [] st st true := by
  refine ⟨hw, Grows.refl _ hw, fun _ _ => rfl, fun _ _ => ⟨rfl, Appended.nil _ hw⟩, ?_⟩
  intro _ hl
  simp only [Within] at hw
  simp only [List.flatten_nil, List.length_nil] at hl
  omega

/-- Once the buffer has failed, later writes do no more than add to it. -/
theorem Emitted.after_bad (h : Emitted clean ids us st st1 ok) (hb : st1.buf.bad = true)
    (hgrows : Grows st1.buf st2.buf) (hflags : ∀ id ∉ ids, st2.emitted id = st1.emitted id)
    (ws : List Bytes) (ok' : Bool) : Emitted clean ids (us ++ ws) st st2 ok' := by
  have hw : st.buf.head ≤ maxSize := h.within
  have hmis (hg : st.buf.bad = false) : maxSize < st.buf.head + us.flatten.length := by
    by_contra hf
    rw [h.good hg (Nat.le_of_not_lt hf)] at hb
    cases hb
  refine ⟨h.within, h.grows.trans hgrows, fun id hid => (hflags id hid).trans (h.flags id hid),
    ?_, ?_⟩
  · intro hg hf
    have := hmis hg
    rw [List.flatten_append, List.length_append] at hf
    omega
  · intro hg _
    have hm := hmis hg
    refine ⟨hgrows.bad hb, ?_⟩
    intro c
    rw [fitted_append_of_misfit _ _ _ (by omega)]
    exact ((h.misfit hg hm).2 c).trans hgrows.view

theorem Emitted.trans (h : Emitted clean ids us st st1 true)
    (k : Emitted clean ids ws st1 st2 ok) : Emitted clean ids (us ++ ws) st st2 ok := by
  cases hb : st1.buf.bad with
  | true => exact h.after_bad hb k.grows k.flags ws ok
  | false =>
    have hw : st.buf.head ≤ maxSize := h.within
    have hlen : (us ++ ws).flatten.length = us.flatten.length + ws.flatten.length := by simp
    have hfit (hg : st.buf.bad = false) : st.buf.head + us.flatten.length ≤ maxSize := by
      by_contra hm
      rw [(h.misfit hg (by omega)).1] at hb
      cases hb
    refine ⟨h.within, h.grows.trans k.grows, fun id hid => (k.flags id hid).trans (h.flags id hid),
      ?_, ?_⟩
    · intro hg hf
      obtain ⟨-, ha⟩ := h.fits hg (hfit hg)
      have hh := ha.head hw
      obtain ⟨hok, ha'⟩ := k.fits hb (by omega)
      exact ⟨hok, by rw [List.flatten_append]; exact ha.trans ha'⟩
    · intro hg hm
      obtain ⟨-, ha⟩ := h.fits hg (hfit hg)
      have hh := ha.head hw
      have hf := hfit hg
      obtain ⟨hbad, hpre⟩ := k.misfit hb (by omega)
      refine ⟨hbad, ?_⟩
      intro c
      have hp := hpre c
      rw [ha.view, hh, List.append_assoc, Nat.sub_add_eq] at hp
      rwa [fitted_append_of_fits _ _ _ (by omega)]

/-- A checked write that fails ends the emission. -/
theorem Emitted.stop (h : Emitted clean ids us st st1 false) (ws : List Bytes) :
    Emitted clean ids (us ++ ws) st st1 false := by
  cases hg : st.buf.bad with
  | true => exact Emitted.of_bad h.within hg h.grows h.flags
  | false =>
    refine h.after_bad ?_ (Grows.refl _ h.grows.within) (fun _ _ => rfl) ws false
    by_contra hb
    have hm : maxSize < st.buf.head + us.flatten.length := by
      by_contra hf
      exact Bool.false_ne_true (h.fits hg (Nat.le_of_not_lt hf)).1
    exact hb (h.misfit hg hm).1

theorem Emitted.of_sent (hw : st.buf.Within) (h : Sent st.buf ws st1.buf ok)
    (hflags : st1.emitted = st.emitted) : Emitted clean ids ws st st1 ok := by
  refine ⟨hw, h.grows, fun id _ => by rw [hflags], ?_, ?_⟩
  · intro _ hf
    cases h with
    | all _ ha => exact ⟨rfl, ha⟩
    | cut hm _ => omega
  · intro _ hm
    cases h with
    | all hf _ => omega
    | cut _ ht =>
      exact ⟨ht.bad, fun _ => ht.view ▸ List.prefix_rfl⟩

end Emitted

/-- A checked emission of the writes `ws`. -/
def Emits (clean : Prop) (ids : List Nat) (ws : List Bytes)
    (e : StackEmission maxSize → Option (StackEmission maxSize × Bool)) : Prop :=
  ∀ st, st.buf.Within → ∃ st' ok, e st = some (st', ok) ∧ Emitted clean ids ws st st' ok

/-- An emission of the writes `ws` through void calls. -/
def Puts (clean : Prop) (ids : List Nat) (ws : List Bytes)
    (e : StackEmission maxSize → Option (StackEmission maxSize)) : Prop :=
  ∀ st, st.buf.Within → ∃ st', e st = some st' ∧ Emitted clean ids ws st st' true

section Emits
variable {clean clean' : Prop} {ids ids' : List Nat} {us ws : List Bytes}

theorem Emits.andThen {e k : StackEmission maxSize → Option (StackEmission maxSize × Bool)}
    (he : Emits clean ids us e) (hk : Emits clean ids ws k) :
    Emits clean ids (us ++ ws) fun st => StackJson.andThen (e st) k := by
  intro st hw
  obtain ⟨st1, ok, h1, hem⟩ := he st hw
  cases ok with
  | false => exact ⟨st1, false, by simp [StackJson.andThen, h1], hem.stop ws⟩
  | true =>
    obtain ⟨st2, ok2, h2, hem2⟩ := hk st1 hem.grows.within
    exact ⟨st2, ok2, by simp [StackJson.andThen, h1, h2], hem.trans hem2⟩

theorem Puts.bind {e k : StackEmission maxSize → Option (StackEmission maxSize)}
    (he : Puts clean ids us e) (hk : Puts clean ids ws k) :
    Puts clean ids (us ++ ws) fun st => (e st).bind k := by
  intro st hw
  obtain ⟨st1, h1, hem⟩ := he st hw
  obtain ⟨st2, h2, hem2⟩ := hk st1 hem.grows.within
  exact ⟨st2, by simp [h1, h2], hem.trans hem2⟩

theorem Puts.mono {e : StackEmission maxSize → Option (StackEmission maxSize)}
    (h : Puts clean ids ws e) (hc : clean' → clean) (hi : ids ⊆ ids') : Puts clean' ids' ws e := by
  intro st hw
  obtain ⟨st', he, hem⟩ := h st hw
  exact ⟨st', he, hem.mono hc hi⟩

end Emits

section writes
variable {clean : Prop} {ids : List Nat}

theorem write_emits (str : Bytes) (hne : str ≠ []) :
    Emits clean ids [str] fun st : StackEmission maxSize => st.write str := by
  intro st hw
  obtain ⟨b', n, he, hs⟩ := write_sent st.buf str hw hne
  exact ⟨{ st with buf := b' }, n != 0, by simp [Emission.write, he], Emitted.of_sent hw hs rfl⟩

theorem writeEscaped_emits (str : Bytes) :
    Emits clean ids (stringChunks str) fun st : StackEmission maxSize => st.writeEscaped str := by
  intro st hw
  cases hg : st.buf.bad with
  | true =>
    exact ⟨st, false, by simp [Emission.writeEscaped, writeEscaped_bad st.buf str hg],
      Emitted.of_bad hw hg (Grows.refl _ hw) fun _ _ => rfl⟩
  | false =>
    obtain ⟨b', n, he, hs⟩ := writeEscaped_sent st.buf str hw hg
    exact ⟨{ st with buf := b' }, n != 0, by simp [Emission.writeEscaped, he],
      Emitted.of_sent hw hs rfl⟩

/-- A call whose result is dropped. -/
theorem Emits.drop {ws : List Bytes}
    {e : StackEmission maxSize → Option (StackEmission maxSize × Bool)}
    (h : Emits clean ids ws e) : Puts clean ids ws fun st => (e st).map Prod.fst := by
  intro st hw
  obtain ⟨st', ok, he, hem⟩ := h st hw
  exact ⟨st', by simp [he], hem.within, hem.grows, hem.flags,
    fun hg hf => ⟨rfl, (hem.fits hg hf).2⟩, hem.misfit⟩

end writes

section items
variable {clean : Prop} {ids : List Nat}

def Item.map {α β : Type} (f : α → β) : Item α → Item β
  | .punct c => .punct c
  | .key k => .key k
  | .value a => .value (f a)

/-- The writes of an item whose value is given by its own writes. -/
def Item.chunks : Item (List Bytes) → List Bytes
  | .punct c => [[c]]
  | .key k => stringChunks k
  | .value ws => ws

def itemChunks (its : List (Item (List Bytes))) : List Bytes := its.flatMap Item.chunks

/-- Writing items emits their writes in order, when each value among them does so. -/
theorem runItems_emits (its : List (Item (NodeBase (StackBuffer maxSize) × List Bytes)))
    (h : ∀ p ∈ itemValues its, Puts clean ids p.2 p.1.emitValue) :
    Emits clean ids (itemChunks (its.map (Item.map Prod.snd)))
      (runItems (its.map (Item.map Prod.fst))) := by
  induction its with
  | nil => exact fun st hw => ⟨st, true, rfl, Emitted.nil hw⟩
  | cons it its ih =>
    have hone : Emits clean ids (it.map Prod.snd).chunks fun st => runItem st (it.map Prod.fst) := by
      cases it with
      | punct c => exact write_emits [c] (by simp)
      | key k => exact writeEscaped_emits k
      | value p =>
        intro st hw
        obtain ⟨st', he, hem⟩ := h p (by simp [itemValues]) st hw
        exact ⟨st', true, by simp [runItem, Item.map, callEmitValue, he], hem⟩
    have hrest := ih fun p hp => h p (by cases it <;> simp [itemValues, hp])
    exact hone.andThen hrest

end items

end Espbase.StackJson
