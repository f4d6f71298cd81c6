import Espbase.StackJson.Printer

namespace Espbase.StackJson

open Espbase.Lib

/-- A buffer whose write span is a run of cells behind its text. -/
class SpanBuffer (σ : Type) [Buffer σ] where
  Valid : σ → Prop
  view : σ → Bytes
  /-- the write span, as it is -/
  cells : σ → Bytes
  load_eq (b : σ) (i : Nat) (h : Valid b) : Buffer.load b i = (cells b)[i]?
  store_ok (b : σ) (i : Nat) (w : Bytes) (h : Valid b) (hfit : i + w.length ≤ (cells b).length) :
    ∃ b', Buffer.store b i w = some b' ∧ Valid b' ∧ Buffer.bad b' = Buffer.bad b ∧ view b' = view b ∧
      cells b' = overwrite (cells b) i w
  commit_ok (b : σ) (k : Nat) (h : Valid b) (hfit : k ≤ (cells b).length) :
    ∃ b', Buffer.commit b k = some b' ∧ Valid b' ∧ Buffer.bad b' = Buffer.bad b ∧
      view b' = view b ++ (cells b).take k ∧ cells b' = (cells b).drop k
  span_ok (b : σ) (h : Valid b) : Valid (Buffer.getWriteSpan b).1 ∧
    Buffer.bad (Buffer.getWriteSpan b).1 = Buffer.bad b ∧ view (Buffer.getWriteSpan b).1 = view b ∧
    (cells (Buffer.getWriteSpan b).1).length = (Buffer.getWriteSpan b).2 ∧
    (cells b).length ≤ (Buffer.getWriteSpan b).2
  fail_ok (b : σ) (h : Valid b) : Valid (Buffer.fail b) ∧ Buffer.bad (Buffer.fail b) = true ∧
    view (Buffer.fail b) = view b

open SpanBuffer

/-- `b'` is `b` with other cells in the span. -/
structure Kept {σ : Type} [Buffer σ] [SpanBuffer σ] (b : σ) (cs : Bytes) (b' : σ) : Prop where
  valid : Valid b'
  bad : Buffer.bad b' = Buffer.bad b
  view : view b' = view b
  cells : cells b' = cs

/-- `b'` is `b` with more text. -/
structure Added {σ : Type} [Buffer σ] [SpanBuffer σ] (b : σ) (w : Bytes) (b' : σ) : Prop where
  valid : Valid b'
  bad : Buffer.bad b' = Buffer.bad b
  view : view b' = view b ++ w

/-- `b'` has failed, and its text is that of `b`. -/
structure Refused {σ : Type} [Buffer σ] [SpanBuffer σ] (b b' : σ) : Prop where
  valid : Valid b'
  bad : Buffer.bad b' = true
  view : view b' = view b

theorem Kept.trans {σ : Type} [Buffer σ] [SpanBuffer σ] {b b1 b2 : σ} {cs1 cs2 : Bytes} (h : Kept b cs1 b1)
    (k : Kept b1 cs2 b2) : Kept b cs2 b2 :=
  ⟨k.valid, k.bad.trans h.bad, k.view.trans h.view, k.cells⟩

/-- A buffer under watch: a read of a cell that has been written, and an access at or beyond `limit`, are
not possible. -/
structure Watched (σ : Type) where
  buf : σ
  limit : Nat
  written : List Nat

instance {σ : Type} [Buffer σ] : Buffer (Watched σ) where
  write w str := (Buffer.write w.buf str).map fun r => ({ w with buf := r.1 }, r.2)
  getWriteSpan w := ({ w with buf := (Buffer.getWriteSpan w.buf).1 }, (Buffer.getWriteSpan w.buf).2)
  load w i := if i < w.limit ∧ i ∉ w.written then Buffer.load w.buf i else none
  store w i str :=
    if i + str.length ≤ w.limit then
      (Buffer.store w.buf i str).map fun buf =>
        { w with buf, written := List.range' i str.length ++ w.written }
    else none
  commit w count := (Buffer.commit w.buf count).map fun buf => { w with buf }
  length w := Buffer.length w.buf
  bad w := Buffer.bad w.buf
  fail w := { w with buf := Buffer.fail w.buf }

/-- The backwards pass writes the JSON escape of each byte. -/
theorem expansion_eq (c : UInt8) : expansion c = escapeByte c := by
  revert c
  decide +kernel

theorem escapeByte_length (c : UInt8) : (escapeByte c).length = extra c + 1 := by
  revert c
  decide +kernel

theorem escapeByte_of_extra (c : UInt8) (h : extra c = 0) : escapeByte c = [c] := by
  revert c
  decide +kernel

/-- An escape that is no longer than the text is the text. -/
theorem escape_eq_self (t : Bytes) (h : (escape t).length = t.length) : escape t = t := by
  induction t with
  | nil => rfl
  | cons c t ih =>
    have hb := escapeByte_length c
    have ht := escape_length_ge t
    rw [escape_cons, List.length_append, List.length_cons] at h
    rw [escape_cons, escapeByte_of_extra c (by omega), ih (by omega)]
    rfl

section watched
variable {σ : Type} [Buffer σ]

/-- What is possible under watch is possible without it, with the same result. -/
theorem store_unwatched (b b' : Watched σ) (i : Nat) (w : Bytes) (h : Buffer.store b i w = some b') :
    Buffer.store b.buf i w = some b'.buf := by
  simp only [Buffer.store] at h
  split_ifs at h
  obtain ⟨buf, hbuf, rfl⟩ := Option.map_eq_some_iff.mp h
  exact hbuf

theorem storeBack_unwatched (rev : Bytes) (b b' : Watched σ) (w : Nat) (h : storeBack b w rev = some b') :
    storeBack b.buf w rev = some b'.buf := by
  induction rev generalizing b w with
  | nil => exact congrArg (Option.map Watched.buf) h
  | cons c rev ih =>
    rw [storeBack] at h ⊢
    split_ifs at h ⊢ with hw
    obtain ⟨b1, h1, h⟩ := Option.bind_eq_some_iff.mp h
    rw [store_unwatched b b1 _ _ h1]
    exact ih b1 (w - 1) h

theorem expand_unwatched (b b' : Watched σ) (r w : Nat) (h : expand b r w = some b') :
    expand b.buf r w = some b'.buf := by
  induction r generalizing b w with
  | zero => exact congrArg (Option.map Watched.buf) h
  | succ r ih =>
    rw [expand] at h ⊢
    obtain ⟨c, hc, h⟩ := Option.bind_eq_some_iff.mp h
    obtain ⟨b1, h1, h⟩ := Option.bind_eq_some_iff.mp h
    have hc' : Buffer.load b.buf r = some c := by
      simp only [Buffer.load] at hc
      split_ifs at hc
      exact hc
    rw [hc']
    simp only [Option.bind_eq_bind, Option.bind_some, storeBack_unwatched _ b b1 w h1]
    exact ih b1 _ h

variable [SpanBuffer σ]

/-- A block that is stored backwards covers the cells before `w`, and no others. -/
theorem storeBack_spec (rev : Bytes) (b : σ) (limit : Nat) (written : List Nat) (w : Nat) (hb : Valid b)
    (hr : rev.length ≤ w) (hw : w ≤ limit) (hl : limit ≤ (cells b).length) :
    ∃ b' written', storeBack (Watched.mk b limit written) w rev = some ⟨b', limit, written'⟩ ∧
      Kept b (overwrite (cells b) (w - rev.length) rev.reverse) b' ∧
      ∀ i, i ∈ written' ↔ (w - rev.length ≤ i ∧ i < w) ∨ i ∈ written := by
  induction rev generalizing b w written with
  | nil =>
    refine ⟨b, written, rfl, ⟨hb, rfl, rfl, ?_⟩, fun i => ?_⟩
    · simp [overwrite]
    · refine ⟨Or.inr, fun h => h.resolve_left ?_⟩
      rw [List.length_nil]
      omega
  | cons c rev ih =>
    simp only [List.length_cons] at hr
    obtain ⟨b1, e1, v1, g1, t1, c1⟩ := store_ok b (w - 1) [c] hb (by simp; omega)
    have hlen : (cells b1).length = (cells b).length := by
      rw [c1, overwrite_length _ _ _ (by simp; omega)]
    obtain ⟨b2, written2, e2, k2, hi2⟩ := ih b1 (List.range' (w - 1) 1 ++ written) (w - 1) v1 (by omega)
      (by omega) (by omega)
    refine ⟨b2, written2, ?_, ⟨k2.valid, k2.bad.trans g1, k2.view.trans t1, ?_⟩, ?_⟩
    · rw [storeBack, if_neg (by omega)]
      have hs : Buffer.store (Watched.mk b limit written) (w - 1) [c] =
          some ⟨b1, limit, List.range' (w - 1) 1 ++ written⟩ := by
        show (if w - 1 + 1 ≤ limit then _ else none) = _
        rw [if_pos (by omega), e1]
        rfl
      simp only [hs, Option.bind_eq_bind, Option.bind_some]
      exact e2
    · have hblock := overwrite_overwrite_before (cells b) rev.reverse [c] (w - 1 - rev.length)
        (by simp; omega)
      rw [show w - 1 - rev.length + rev.reverse.length = w - 1 by simp; omega] at hblock
      rw [k2.cells, c1, hblock, List.reverse_cons, List.length_cons, Nat.sub_sub, Nat.add_comm 1]
    · intro i
      rw [hi2 i, List.mem_append, List.mem_range'_1, List.length_cons, ← or_assoc]
      apply or_congr _ Iff.rfl
      omega

/-- The backwards pass under watch: the first `r` bytes are still unescaped at the start of the span and the
escape of the others already ends at its final place. Only cells behind the next write have been written. -/
theorem expand_spec (t rest : Bytes) (r limit : Nat) (b : σ) (written : List Nat) (hb : Valid b)
    (hr : r ≤ t.length) (hlim : (escape (t.take r)).length ≤ limit) (hl : limit ≤ (cells b).length)
    (hlo : (cells b).take r = t.take r)
    (hhi : (cells b).drop (escape (t.take r)).length = escape (t.drop r) ++ rest)
    (hwr : ∀ i ∈ written, (escape (t.take r)).length ≤ i) :
    ∃ b' written', expand (Watched.mk b limit written) r (escape (t.take r)).length =
      some ⟨b', limit, written'⟩ ∧ Kept b (escape t ++ rest) b' := by
  induction r generalizing b written with
  | zero => exact ⟨b, written, rfl, hb, rfl, rfl, by simpa using hhi⟩
  | succ r ih =>
    have hlt : r < t.length := hr
    have htake : t.take (r + 1) = t.take r ++ [t[r]] := List.take_succ_eq_append_getElem hlt
    have hesc : escape (t.take (r + 1)) = escape (t.take r) ++ escapeByte t[r] := by
      rw [htake, escape_append]
      simp
    have hlen : (escape (t.take (r + 1))).length =
        (escape (t.take r)).length + (escapeByte t[r]).length := by rw [hesc, List.length_append]
    have hge : r ≤ (escape (t.take r)).length := by
      have := escape_length_ge (t.take r)
      rw [List.length_take] at this
      omega
    have hbyte := escapeByte_length t[r]
    have hload : Buffer.load (Watched.mk b limit written) r = some t[r] := by
      have hfree : r ∉ written := by
        intro hm
        have := hwr r hm
        omega
      show (if r < limit ∧ r ∉ written then Buffer.load b r else none) = _
      rw [if_pos ⟨by omega, hfree⟩, load_eq b r hb]
      have hget := congrArg (fun l => l[r]?) hlo
      simpa [List.getElem?_take_of_lt (Nat.lt_succ_self r), List.getElem?_eq_getElem hlt] using hget
    obtain ⟨b1, written1, e1, k1, hw1⟩ := storeBack_spec (expansion t[r]).reverse b limit written
      (escape (t.take (r + 1))).length hb (by rw [List.length_reverse, expansion_eq]; omega) hlim hl
    have c1 := k1.cells
    rw [List.reverse_reverse, List.length_reverse, expansion_eq, hlen, Nat.add_sub_cancel] at c1
    rw [List.length_reverse, expansion_eq, hlen, Nat.add_sub_cancel] at hw1
    have hlo1 : (cells b1).take r = t.take r := by
      have h := congrArg (List.take r) hlo
      rw [List.take_take, List.take_take, Nat.min_eq_left (Nat.le_succ r)] at h
      have ht := congrArg (List.take r)
        (take_overwrite (cells b) (escapeByte t[r]) (escape (t.take r)).length (by omega))
      rw [List.take_take, List.take_take, Nat.min_eq_left hge] at ht
      rw [c1, ht, h]
    have hhi1 : (cells b1).drop (escape (t.take r)).length = escape (t.drop r) ++ rest := by
      have hd := drop_overwrite (cells b) (escapeByte t[r]) (escape (t.take r)).length 0 (by omega)
      rw [Nat.add_zero] at hd
      rw [c1, hd, overwrite, List.take_zero, List.nil_append, Nat.zero_add, List.drop_drop,
        ← hlen, hhi, List.drop_eq_getElem_cons hlt, escape_cons, List.append_assoc]
    have hl1 : limit ≤ (cells b1).length := by
      rw [c1, overwrite_length _ _ _ (by omega)]
      exact hl
    have hwr1 : ∀ i ∈ written1, (escape (t.take r)).length ≤ i := by
      intro i hi
      rcases (hw1 i).mp hi with h | h
      · exact h.1
      · have := hwr i h
        omega
    obtain ⟨b2, written2, e2, k2⟩ := ih b1 written1 k1.valid (by omega) (by omega) hl1 hlo1 hhi1 hwr1
    refine ⟨b2, written2, ?_, k1.trans k2⟩
    have hsub : (escape (t.take (r + 1))).length - (expansion t[r]).length =
        (escape (t.take r)).length := by rw [expansion_eq]; omega
    simp only [expand, hload, e1, Option.bind_eq_bind, Option.bind_some, hsub, e2]

theorem countExtra_spec (t : Bytes) (b : σ) (i : Nat) (hb : Valid b)
    (hc : ((cells b).drop i).take t.length = t) :
    ∃ e, countExtra b i t.length = some e ∧ (escape t).length = t.length + e := by
  induction t generalizing i with
  | nil => exact ⟨0, rfl, rfl⟩
  | cons c t ih =>
    have hi : i < (cells b).length := by
      by_contra hi
      rw [List.drop_eq_nil_of_le (Nat.le_of_not_lt hi)] at hc
      cases hc
    rw [List.length_cons, List.drop_eq_getElem_cons hi, List.take_succ_cons] at hc
    obtain ⟨hhead, htail⟩ := List.cons.inj hc
    obtain ⟨e, he, hl⟩ := ih (i + 1) htail
    have hload : Buffer.load b i = some c := by
      rw [load_eq b i hb, List.getElem?_eq_getElem hi, hhead]
    refine ⟨extra c + e, by simp [countExtra, hload, he], ?_⟩
    rw [escape_cons, List.length_append, escapeByte_length, hl, List.length_cons]
    omega

/-- The text, if it is shorter than the span, and its terminator lie at the start of the span. -/
theorem vsnprintf_spec (t : Bytes) (b : σ) (hb : Valid b) (hpos : 0 < (cells b).length) :
    ∃ b' cs, vsnprintf b (cells b).length t = some b' ∧ Kept b cs b' ∧ cs.length = (cells b).length ∧
      (t.length < (cells b).length → cs = t ++ 0 :: (cells b).drop (t.length + 1)) := by
  generalize hn : (cells b).length = n at hpos
  have hk : (t.take (n - 1)).length + 1 ≤ n := by
    rw [List.length_take]
    omega
  obtain ⟨b1, e1, v1, g1, t1, c1⟩ := store_ok b 0 (t.take (n - 1)) hb (by omega)
  have hlen : (cells b1).length = n := by
    rw [c1, overwrite_length _ _ _ (by omega), hn]
  obtain ⟨b2, e2, v2, g2, t2, c2⟩ := store_ok b1 (t.take (n - 1)).length [0] v1 (by simpa [hlen] using hk)
  have hblock := overwrite_overwrite (cells b) (t.take (n - 1)) [0] 0 (by omega)
  rw [Nat.zero_add, ← c1, ← c2] at hblock
  refine ⟨b2, cells b2, ?_, ⟨v2, g2.trans g1, t2.trans t1, rfl⟩, ?_, ?_⟩
  · simp only [vsnprintf, e1, e2, Option.bind_eq_bind, Option.bind_some]
  · rw [c2, overwrite_length _ _ _ (by simpa [hlen] using hk), hlen]
  · intro hlt
    have htake : t.take (n - 1) = t := List.take_of_length_le (by omega)
    rw [hblock, htake, overwrite]
    simp

/-- Escaped printing appends the JSON escape of a text that is shorter than the span and whose escape fits. -/
theorem vprint_fits (t : Bytes) (b : σ) (hb : Valid b) (hg : Buffer.bad b = false)
    (hlt : t.length < (Buffer.getWriteSpan b).2) (hle : (escape t).length ≤ (Buffer.getWriteSpan b).2) :
    ∃ b', vprint true (some t) b = some (b', (escape t).length) ∧ Added b (escape t) b' ∧
      (Buffer.getWriteSpan b).2 ≤ (escape t).length + (Buffer.getWriteSpan b').2 := by
  obtain ⟨hv0, hg0, ht0, hl0, -⟩ := span_ok b hb
  unfold vprint
  rw [if_neg (by simp [hg])]
  generalize hspan : Buffer.getWriteSpan b = r at hlt hle hv0 hg0 ht0 hl0
  obtain ⟨b0, n⟩ := r
  dsimp only at hlt hle hv0 hg0 ht0 hl0 ⊢
  rw [if_neg (by omega)]
  obtain ⟨b1, cs, e1, k1, hcs, hc⟩ := vsnprintf_spec t b0 hv0 (by omega)
  rw [hl0] at e1 hcs hc
  have hc := k1.cells.trans (hc hlt)
  have hl1 : (cells b1).length = n := by rw [k1.cells, hcs]
  obtain ⟨e, he, hel⟩ := countExtra_spec t b1 0 k1.valid (by rw [hc]; simp)
  have commit (b2 : σ) (rest : Bytes) (k2 : Kept b1 (escape t ++ rest) b2)
      (hl2 : (cells b2).length = n) :
      ∃ b', Buffer.commit b2 (escape t).length = some b' ∧ Added b (escape t) b' ∧
        n ≤ (escape t).length + (Buffer.getWriteSpan b').2 := by
    obtain ⟨b3, e3, v3, g3, t3, c3⟩ := commit_ok b2 (escape t).length k2.valid (by omega)
    have hspan3 := (span_ok b3 v3).2.2.2.2
    rw [c3, List.length_drop] at hspan3
    refine ⟨b3, e3, ⟨v3, ?_, ?_⟩, by omega⟩
    · exact g3.trans ((k1.trans k2).bad.trans hg0)
    · rw [t3, k2.cells, List.take_left, (k1.trans k2).view, ht0]
  simp only [e1, he, Option.bind_eq_bind, Option.bind_some, if_neg (Nat.not_le.mpr hlt), if_true]
  by_cases hz : e = 0
  · have hplain := escape_eq_self t (by omega)
    obtain ⟨b3, e3, ha⟩ := commit b1 (0 :: (cells b0).drop (t.length + 1))
      ⟨k1.valid, rfl, rfl, by rw [hc, hplain]⟩ hl1
    rw [hplain] at e3 ha ⊢
    simp only [if_pos hz, e3, Option.bind_some]
    exact ⟨b3, rfl, ha⟩
  · have hall : t.take t.length = t := List.take_of_length_le (Nat.le_refl _)
    obtain ⟨b2, written, e2, k2⟩ := expand_spec t ((cells b1).drop (escape t).length) t.length n b1 []
      k1.valid (Nat.le_refl _) (by rw [hall]; exact hle) (by omega) (by rw [hc]; simp)
      (by rw [hall]; simp) nofun
    have e2 := expand_unwatched _ _ _ _ e2
    have hl2 : (cells b2).length = n := by
      rw [k2.cells, List.length_append, List.length_drop]
      omega
    obtain ⟨b3, e3, ha⟩ := commit b2 _ k2 hl2
    rw [hall] at e2
    dsimp only at e2
    rw [hel] at e2 e3 ha ⊢
    rw [if_neg hz, if_neg (by omega)]
    simp only [e2, e3, Option.bind_some]
    exact ⟨b3, rfl, ha⟩

/-- Otherwise it fails, and commits nothing. -/
theorem vprint_misfit (t : Bytes) (b : σ) (hb : Valid b) (hg : Buffer.bad b = false)
    (hmis : ¬ (t.length < (Buffer.getWriteSpan b).2 ∧ (escape t).length ≤ (Buffer.getWriteSpan b).2)) :
    ∃ b', vprint true (some t) b = some (b', 0) ∧ Refused b b' := by
  obtain ⟨hv0, hg0, ht0, hl0, -⟩ := span_ok b hb
  unfold vprint
  rw [if_neg (by simp [hg])]
  generalize hspan : Buffer.getWriteSpan b = r at hmis hv0 hg0 ht0 hl0
  obtain ⟨b0, n⟩ := r
  dsimp only at hmis hv0 hg0 ht0 hl0 ⊢
  have refused (b1 : σ) (cs : Bytes) (k : Kept b0 cs b1) : Refused b (Buffer.fail b1) := by
    obtain ⟨hv, hf, ht⟩ := fail_ok b1 k.valid
    exact ⟨hv, hf, ht.trans (k.view.trans ht0)⟩
  by_cases hn : n = 0
  · rw [if_pos hn]
    exact ⟨_, rfl, refused b0 _ ⟨hv0, rfl, rfl, rfl⟩⟩
  · rw [if_neg hn]
    obtain ⟨b1, cs, e1, k1, hcs, hc⟩ := vsnprintf_spec t b0 hv0 (by omega)
    rw [hl0] at e1 hcs hc
    simp only [e1, Option.bind_eq_bind, Option.bind_some]
    by_cases hlt : t.length < n
    · have hc := k1.cells.trans (hc hlt)
      obtain ⟨e, he, hel⟩ := countExtra_spec t b1 0 k1.valid (by rw [hc]; simp)
      have hge : n < t.length + e := by
        by_contra hle
        exact hmis ⟨hlt, by omega⟩
      simp only [if_neg (Nat.not_le.mpr hlt), if_true, he, Option.bind_some]
      rw [if_neg (by omega), if_pos hge]
      exact ⟨_, rfl, refused b1 cs k1⟩
    · rw [if_pos (Nat.le_of_not_lt hlt)]
      exact ⟨_, rfl, refused b1 cs k1⟩

end watched

end Espbase.StackJson
