import Espbase.Lib.Bytes

namespace Espbase.Lib

/-- What a store with `room` free bytes holds after the given writes, when it refuses the first one
that does not fit and everything after it. -/
def fitted : Nat → List Bytes → Bytes
  | _, [] => []
  | room, w :: ws => if w.length ≤ room then w ++ fitted (room - w.length) ws else []

theorem fitted_append_of_fits (as bs : List Bytes) (room : Nat) (h : as.flatten.length ≤ room) :
    fitted room (as ++ bs) = as.flatten ++ fitted (room - as.flatten.length) bs := by
  induction as generalizing room with
  | nil => simp
  | cons w ws ih =>
    simp only [List.flatten_cons, List.length_append] at h
    rw [List.cons_append, fitted, if_pos (by omega), ih (room - w.length) (by omega)]
    simp [Nat.sub_sub]

/-- Nothing after a write that was refused is kept. -/
theorem fitted_append_of_misfit (as bs : List Bytes) (room : Nat)
    (h : room < as.flatten.length) : fitted room (as ++ bs) = fitted room as := by
  induction as generalizing room with
  | nil => simp at h
  | cons w ws ih =>
    simp only [List.flatten_cons, List.length_append] at h
    rw [List.cons_append, fitted, fitted]
    split_ifs with hw
    · rw [ih (room - w.length) (by omega)]
    · rfl

theorem fitted_prefix (ws : List Bytes) (room : Nat) : fitted room ws <+: ws.flatten := by
  induction ws generalizing room with
  | nil => simp [fitted]
  | cons w ws ih =>
    rw [fitted, List.flatten_cons]
    split_ifs
    · exact (List.prefix_append_right_inj w).mpr (ih _)
    · exact List.nil_prefix

theorem fitted_length_le (ws : List Bytes) (room : Nat) : (fitted room ws).length ≤ room := by
  induction ws generalizing room with
  | nil => simp [fitted]
  | cons w ws ih =>
    rw [fitted]
    split_ifs with hw
    · have := ih (room - w.length)
      rw [List.length_append]
      omega
    · simp

section packed

/-- What a store with `room` free bytes holds after the given writes, when it leaves out each one that
does not fit and goes on. -/
def packed : Nat → List Bytes → Bytes
  | _, [] => []
  | room, w :: ws => if w.length ≤ room then w ++ packed (room - w.length) ws else packed room ws

theorem packed_append_of_fits (as bs : List Bytes) (room : Nat) (h : as.flatten.length ≤ room) :
    packed room (as ++ bs) = as.flatten ++ packed (room - as.flatten.length) bs := by
  induction as generalizing room with
  | nil => simp
  | cons w ws ih =>
    simp only [List.flatten_cons, List.length_append] at h
    rw [List.cons_append, packed, if_pos (by omega), ih (room - w.length) (by omega)]
    simp [Nat.sub_sub]

theorem packed_eq_flatten (ws : List Bytes) (room : Nat) (h : ws.flatten.length ≤ room) :
    packed room ws = ws.flatten := by
  have happend := packed_append_of_fits ws [] room h
  rwa [List.append_nil, packed, List.append_nil] at happend

theorem packed_length_le (ws : List Bytes) (room : Nat) : (packed room ws).length ≤ room := by
  induction ws generalizing room with
  | nil => simp [packed]
  | cons w ws ih =>
    rw [packed]
    split_ifs with hw
    · have := ih (room - w.length)
      rw [List.length_append]
      omega
    · exact ih room

theorem packed_eq_nil_iff (ws : List Bytes) (hne : [] ∉ ws) (room : Nat) :
    packed room ws = [] ↔ ∀ w ∈ ws, room < w.length := by
  induction ws with
  | nil => simp [packed]
  | cons w ws ih =>
    rw [List.mem_cons, not_or] at hne
    rw [packed, List.forall_mem_cons]
    split_ifs with hw
    · have hw' : ¬ room < w.length := Nat.not_lt.mpr hw
      simp [hw', Ne.symm hne.1]
    · rw [ih hne.2, and_iff_right (Nat.lt_of_not_le hw)]

/-- Less room makes no difference exactly when there is room for what was kept. -/
theorem packed_eq_iff (ws : List Bytes) (m n : Nat) (h : m ≤ n) :
    packed m ws = packed n ws ↔ (packed n ws).length ≤ m := by
  constructor
  · intro heq
    rw [← heq]
    exact packed_length_le ws m
  · intro hle
    induction ws generalizing m n with
    | nil => rfl
    | cons w ws ih =>
      rw [packed] at hle
      rw [packed, packed]
      by_cases hw : w.length ≤ n
      · rw [if_pos hw, List.length_append] at hle
        rw [if_pos hw, if_pos (by omega), ih (m - w.length) (n - w.length) (by omega) (by omega)]
      · rw [if_neg hw] at hle
        rw [if_neg hw, if_neg (by omega), ih m n h hle]

/-- The first write that does not fit. -/
structure Misfit (room : Nat) (ws before : List Bytes) (w : Bytes) (after : List Bytes) : Prop where
  eq : ws = before ++ w :: after
  fits : before.flatten.length ≤ room
  misfit : room < before.flatten.length + w.length

theorem exists_misfit (ws : List Bytes) (room : Nat) (h : room < ws.flatten.length) :
    ∃ before w after, Misfit room ws before w after := by
  induction ws generalizing room with
  | nil => simp at h
  | cons w ws ih =>
    rw [List.flatten_cons, List.length_append] at h
    by_cases hw : w.length ≤ room
    · obtain ⟨before, x, after, rfl, hfits, hmisfit⟩ := ih (room - w.length) (by omega)
      refine ⟨w :: before, x, after, rfl, ?_, ?_⟩ <;>
      · rw [List.flatten_cons, List.length_append]
        omega
    · exact ⟨[], w, ws, rfl, Nat.zero_le room, by simpa using Nat.lt_of_not_le hw⟩

theorem Misfit.packed {room : Nat} {ws before : List Bytes} {w : Bytes} {after : List Bytes}
    (h : Misfit room ws before w after) :
    packed room ws = before.flatten ++ Lib.packed (room - before.flatten.length) after := by
  have hfits := h.fits
  have hmisfit := h.misfit
  rw [h.eq, packed_append_of_fits before _ room hfits, Lib.packed, if_neg (by omega)]

/-- What is kept are the first writes, and no later one, exactly when no write behind the first that does
not fit is short enough for the room that is left. -/
theorem packed_initial_iff (ws : List Bytes) (hne : [] ∉ ws) (room : Nat) :
    (∃ kept, kept <+: ws ∧ packed room ws = kept.flatten) ↔
      ∀ before w after, Misfit room ws before w after →
        ∀ x ∈ after, room - before.flatten.length < x.length := by
  have hafter {before : List Bytes} {w : Bytes} {after : List Bytes} (h : Misfit room ws before w after) :
      packed (room - before.flatten.length) after = [] ↔
        ∀ x ∈ after, room - before.flatten.length < x.length := by
    apply packed_eq_nil_iff
    intro hmem
    exact hne (by simp [h.eq, hmem])
  constructor
  · intro hinitial before w after h
    obtain ⟨kept, hkept, heq⟩ := hinitial
    rw [← hafter h]
    have hlen := packed_length_le ws room
    have hmisfit := h.misfit
    rw [h.packed] at heq hlen
    rw [heq] at hlen
    rw [h.eq] at hkept
    rcases List.prefix_or_prefix_of_prefix hkept (List.prefix_append before (w :: after)) with hpre | hpre
    · obtain ⟨t, rfl⟩ := hpre
      rw [List.flatten_append] at heq ⊢
      rw [List.append_assoc, List.append_right_eq_self] at heq
      exact (List.append_eq_nil_iff.mp heq).2
    · obtain ⟨t, rfl⟩ := hpre
      rw [List.prefix_append_right_inj] at hkept
      cases t with
      | nil => simpa using heq
      | cons x t =>
        obtain ⟨rfl, -⟩ := List.cons_prefix_cons.mp hkept
        simp only [List.flatten_append, List.flatten_cons, List.length_append] at hlen
        omega
  · intro h
    by_cases hall : ws.flatten.length ≤ room
    · exact ⟨ws, List.prefix_refl ws, packed_eq_flatten ws room hall⟩
    · obtain ⟨before, w, after, hcut⟩ := exists_misfit ws room (Nat.lt_of_not_le hall)
      refine ⟨before, ?_, ?_⟩
      · rw [hcut.eq]
        exact List.prefix_append before _
      · rw [hcut.packed, (hafter hcut).mpr (h before w after hcut), List.append_nil]

end packed

end Espbase.Lib
