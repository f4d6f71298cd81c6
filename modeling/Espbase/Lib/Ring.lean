import Espbase.Lib.Bytes
import Mathlib.Tactic.SplitIfs

namespace Espbase.Lib

/-- One step of at most `size` around a ring. -/
theorem add_mod_window (n d size : Nat) (hs : 0 < size) (hd : d ≤ size) :
    (n + d) % size = if n % size + d < size then n % size + d else n % size + d - size := by
  have hn := Nat.mod_lt n hs
  rw [← Nat.mod_add_mod]
  split_ifs with h
  · exact Nat.mod_eq_of_lt h
  · rw [Nat.mod_eq_sub_mod (by omega), Nat.mod_eq_of_lt (by omega)]

theorem overwrite_getElem? (mem new : Bytes) (i j : Nat) (h : i + new.length ≤ mem.length) :
    (overwrite mem i new)[j]? = if i ≤ j ∧ j < i + new.length then new[j - i]? else mem[j]? := by
  have hl : (mem.take i).length = i := by simp; omega
  rw [overwrite, List.append_assoc]
  by_cases hj : j < i
  · rw [List.getElem?_append_left (by omega), List.getElem?_take_of_lt hj, if_neg (by omega)]
  · rw [List.getElem?_append_right (by omega), hl]
    by_cases hn : j - i < new.length
    · rw [List.getElem?_append_left hn, if_pos (by omega)]
    · rw [List.getElem?_append_right (by omega), List.getElem?_drop, if_neg (by omega)]
      congr 1
      omega

/-- The ring holds the newest bytes of the stream, each at its position modulo the ring's size. -/
def Recent (ring stream : Bytes) : Prop :=
  ∀ j, j < stream.length → stream.length ≤ j + ring.length →
    ring[j % ring.length]? = stream[j]?

/-- Writes `data` from index `offset` on and goes on at the start where the ring ends. -/
def ringPut (ring : Bytes) (offset : Nat) (data : Bytes) : Bytes :=
  if data.length ≤ ring.length - offset then overwrite ring offset data
  else overwrite (overwrite ring offset (data.take (ring.length - offset))) 0
    (data.drop (ring.length - offset))

/-- Reads `n` bytes from index `offset` on and goes on at the start where the ring ends. -/
def ringGet (ring : Bytes) (offset n : Nat) : Bytes :=
  if n ≤ ring.length - offset then (ring.drop offset).take n
  else (ring.drop offset).take (ring.length - offset) ++ ring.take (n - (ring.length - offset))

/-- What `ringPut` does when the data passes the ring's end. -/
theorem ringPut_wraps (ring data : Bytes) (offset k : Nat) (ho : offset < ring.length)
    (hd : data.length ≤ ring.length) (hw : ring.length - offset < data.length) :
    (ringPut ring offset data)[k]? =
      if k + ring.length < offset + data.length then data[k + ring.length - offset]?
      else if offset ≤ k ∧ k < ring.length then data[k - offset]? else ring[k]? := by
  have hl : (data.take (ring.length - offset)).length = ring.length - offset := by simp; omega
  have hr : (overwrite ring offset (data.take (ring.length - offset))).length = ring.length :=
    overwrite_length _ _ _ (by omega)
  rw [ringPut, if_neg (by omega), overwrite_getElem? _ _ _ _ (by rw [hr]; simp; omega),
    overwrite_getElem? _ _ _ _ (by omega), hl, List.length_drop, Nat.sub_zero, List.getElem?_drop]
  by_cases h : k + ring.length < offset + data.length
  · rw [if_pos (by omega), if_pos h]
    congr 1
    omega
  · rw [if_neg (by omega), if_neg h, Nat.add_sub_cancel' (by omega)]
    split_ifs with hk
    · exact List.getElem?_take_of_lt (by omega)
    · rfl

theorem ringPut_getElem? (ring data : Bytes) (offset k : Nat) (ho : offset < ring.length)
    (hd : data.length ≤ ring.length) (hk : k < ring.length) :
    (ringPut ring offset data)[k]? =
      if k + ring.length < offset + data.length then data[k + ring.length - offset]?
      else if offset ≤ k ∧ k < offset + data.length then data[k - offset]? else ring[k]? := by
  by_cases hf : data.length ≤ ring.length - offset
  · rw [ringPut, if_pos hf, overwrite_getElem? _ _ _ _ (by omega)]
    simp only [show ¬ k + ring.length < offset + data.length by omega, if_false]
  · rw [ringPut_wraps ring data offset k ho hd (by omega)]
    simp only [hk, and_true, show k < offset + data.length by omega]

theorem ringPut_length (ring data : Bytes) (offset : Nat) (ho : offset < ring.length)
    (hd : data.length ≤ ring.length) : (ringPut ring offset data).length = ring.length := by
  unfold ringPut
  split_ifs with h
  · exact overwrite_length _ _ _ (by omega)
  · have hl : (data.take (ring.length - offset)).length = ring.length - offset := by simp; omega
    have hr := overwrite_length ring (data.take (ring.length - offset)) offset (by omega)
    rw [overwrite_length _ _ _ (by rw [hr]; simp; omega), hr]

/-- Putting the next bytes of the stream keeps the ring up to date. -/
theorem Recent.put (ring stream data : Bytes) (h : Recent ring stream) (hr : 0 < ring.length)
    (hd : data.length ≤ ring.length) :
    Recent (ringPut ring (stream.length % ring.length) data) (stream ++ data) := by
  have ho := Nat.mod_lt stream.length hr
  have hlen := ringPut_length ring data _ ho hd
  intro j hj hn
  rw [hlen] at hn ⊢
  rw [List.length_append] at hj hn
  rw [ringPut_getElem? ring data _ _ ho hd (Nat.mod_lt j hr)]
  by_cases hs : j < stream.length
  · -- an older byte: none of the new ones lands on its cell
    have hold := h j hs (by omega)
    have hm := add_mod_window j (stream.length - j) ring.length hr (by omega)
    rw [Nat.add_sub_cancel' (by omega)] at hm
    rw [List.getElem?_append_left hs, ← hold]
    have := Nat.mod_lt j hr
    split_ifs at hm <;> rw [if_neg (by omega), if_neg (by omega)]
  · have hm := add_mod_window stream.length (j - stream.length) ring.length hr (by omega)
    rw [Nat.add_sub_cancel' (by omega)] at hm
    rw [List.getElem?_append_right (by omega), hm]
    split_ifs <;> first | omega | (congr 1; omega)

/-- A window of the newest bytes is read back as it stands in the stream. -/
theorem Recent.get (ring stream : Bytes) (h : Recent ring stream) (hr : 0 < ring.length)
    (c n : Nat) (hc : stream.length ≤ c + ring.length) (hn : c + n ≤ stream.length) :
    ringGet ring (c % ring.length) n = (stream.drop c).take n := by
  have ho := Nat.mod_lt c hr
  have at_ (d : Nat) (hd : d < n) : ring[(c + d) % ring.length]? = stream[c + d]? :=
    h (c + d) (by omega) (by omega)
  have hlen : (ringGet ring (c % ring.length) n).length = n := by
    unfold ringGet
    split_ifs <;> simp <;> omega
  apply List.ext_getElem?
  intro d
  by_cases hd : d < n
  · rw [List.getElem?_take_of_lt hd, List.getElem?_drop, ← at_ d hd,
      add_mod_window c d ring.length hr (by omega)]
    unfold ringGet
    split_ifs with hf hw hw
    · rw [List.getElem?_take_of_lt hd, List.getElem?_drop]
    · omega
    · rw [List.getElem?_append_left (by simp; omega), List.getElem?_take_of_lt (by omega),
        List.getElem?_drop]
    · rw [List.getElem?_append_right (by simp; omega), List.getElem?_take_of_lt (by simp; omega)]
      congr 1
      simp
      omega
  · rw [List.getElem?_eq_none (by omega), List.getElem?_eq_none (by simp; omega)]

end Espbase.Lib
