import Espbase.Lib.CompactJson
import Espbase.Lib.JsonDoc
import Espbase.Lib.KeyTreeAt

namespace Espbase.Lib

open KeyTree

mutual
/-- The document that the compact text of a tree is the text of. -/
def treeDoc : KeyTree Bytes Doc → Doc
  | .leaf d => d
  | .node ms => .block true (treeMembers ms) []

def treeMembers : List (Bytes × KeyTree Bytes Doc) → List (Slot × Doc)
  | [] => []
  | (k, t) :: ms => (.compact k !ms.isEmpty, treeDoc t) :: treeMembers ms
end

/-- A key that is written as it is. -/
def PlainKey (k : Bytes) : Prop := k ≠ [] ∧ ∀ c ∈ k, ¬ Special c

theorem PlainKey.body {k : Bytes} (h : PlainKey k) : IsStringBody k :=
  isStringBody_of_plain k fun c hc => ⟨fun he => h.2 c hc (.inl he), fun he => h.2 c hc (.inr (.inl he))⟩

/-- Every escape is complete, and none leaves a quote. -/
theorem escape_body (s : Bytes) : IsStringBody (escape s) := by
  induction s with
  | nil => trivial
  | cons c s ih =>
    rw [escape_cons]
    apply isStringBody_append _ _ _ ih
    by_cases hc : Special c
    · revert c
      decide +kernel
    · rw [escapeByte_plain c hc]
      exact ⟨fun he => hc (.inl he), fun he => hc (.inr (.inl he))⟩

theorem treeMembers_keys (ms : List (Bytes × KeyTree Bytes Doc)) :
    (treeMembers ms).map (fun m => m.1.key) = ms.map Prod.fst := by
  induction ms with
  | nil => rfl
  | cons m ms ih =>
    obtain ⟨k, t⟩ := m
    rw [treeMembers, List.map_cons, List.map_cons, ih]
    rfl

mutual
theorem treeDoc_text (t : KeyTree Bytes Doc) (h : t.Proper PlainKey) :
    (treeDoc t).text = treeText (t.map Doc.text) := by
  match t with
  | .leaf d => rfl
  | .node ms =>
    rw [treeDoc, Doc.text, KeyTree.map, treeText, treeMembers_text ms h.2]
    rfl

theorem treeMembers_text (ms : List (Bytes × KeyTree Bytes Doc)) (h : ProperOf PlainKey ms) :
    Doc.itemsText (treeMembers ms) = commaSep (memberTexts (mapOf Doc.text ms)) := by
  match ms with
  | [] => rfl
  | (k, t) :: ms =>
    rw [ProperOf] at h
    have hkey : stringLiteral k = ch '"' :: (k ++ [ch '"']) := by
      rw [stringLiteral, escape_plain k h.1.2]
      rfl
    rw [treeMembers, Doc.itemsText, treeDoc_text t h.2.2.1, treeMembers_text ms h.2.2.2, mapOf,
      memberTexts, commaSep_cons, hkey]
    cases ms with
    | nil => simp [Slot.compact, Slot.lead, Slot.trail, Label.text, mapOf, memberTexts]
    | cons m ms =>
      obtain ⟨k', t'⟩ := m
      simp [Slot.compact, Slot.lead, Slot.trail, Label.text, mapOf, memberTexts, commaSep_cons]
end

/-- Scalars at the leaves. -/
def ScalarLeaves (ds : List Doc) : Prop := ∀ d ∈ ds, d.WF ∧ ∃ isString raw, d = .scalar isString raw

/-- Leaves that can stand in a plain document. -/
def PlainLeaves (ds : List Doc) : Prop := ∀ d ∈ ds, d.WF ∧ d.Plain

theorem ScalarLeaves.plain {ds : List Doc} (h : ScalarLeaves ds) : PlainLeaves ds := by
  intro d hd
  obtain ⟨hwf, isString, raw, heq⟩ := h d hd
  refine ⟨hwf, ?_⟩
  rw [heq]
  trivial

mutual
theorem PlainLeaves.treeDoc_wf (t : KeyTree Bytes Doc) (h : t.Proper PlainKey) (hl : PlainLeaves t.leaves) :
    (treeDoc t).WF := by
  match t with
  | .leaf d => exact (hl d (by simp [leaves])).1
  | .node ms =>
    rw [treeDoc, Doc.WF]
    exact ⟨PlainLeaves.treeMembers_wf ms h.2 hl, nofun⟩

theorem PlainLeaves.treeMembers_wf (ms : List (Bytes × KeyTree Bytes Doc)) (h : ProperOf PlainKey ms)
    (hl : PlainLeaves (leavesOf ms)) : Doc.ItemsWF true (treeMembers ms) := by
  match ms with
  | [] => trivial
  | (k, t) :: ms =>
    rw [ProperOf] at h
    rw [leavesOf] at hl
    refine ⟨Slot.compact_wf k _ h.1.body, PlainLeaves.treeDoc_wf t h.2.2.1 fun d hd => hl d (by simp [hd]), ?_,
      PlainLeaves.treeMembers_wf ms h.2.2.2 fun d hd => hl d (by simp [hd])⟩
    intro hne
    cases ms with
    | nil => exact absurd rfl hne
    | cons m ms => rfl
end

theorem treeMembers_wf (ms : List (Bytes × KeyTree Bytes Doc)) (h : ProperOf PlainKey ms)
    (hl : ScalarLeaves (leavesOf ms)) : Doc.ItemsWF true (treeMembers ms) :=
  hl.plain.treeMembers_wf ms h

theorem properOf_keys {ms : List (Bytes × KeyTree Bytes Doc)} (h : ProperOf PlainKey ms) :
    (ms.map Prod.fst).Nodup ∧ ∀ k ∈ ms.map Prod.fst, k ≠ [] := by
  induction ms with
  | nil => simp
  | cons m ms ih =>
    obtain ⟨k, t⟩ := m
    rw [ProperOf] at h
    obtain ⟨hnodup, hne⟩ := ih h.2.2.2
    rw [List.map_cons]
    refine ⟨List.nodup_cons.mpr ⟨h.2.1, hnodup⟩, ?_⟩
    intro k' hk'
    rcases List.mem_cons.mp hk' with rfl | hk'
    · exact h.1.1
    · exact hne k' hk'

theorem treeMembers_here (ms : List (Bytes × KeyTree Bytes Doc)) (h : ProperOf PlainKey ms) :
    (Doc.block true (treeMembers ms) []).PlainHere := by
  obtain ⟨hnodup, hne⟩ := properOf_keys h
  refine ⟨by rw [treeMembers_keys]; exact hnodup, fun m hm => hne _ ?_⟩
  rw [← treeMembers_keys]
  exact List.mem_map_of_mem (f := fun m => m.1.key) hm

mutual
theorem PlainLeaves.treeDoc_plain (t : KeyTree Bytes Doc) (h : t.Proper PlainKey) (hl : PlainLeaves t.leaves) :
    (treeDoc t).Plain := by
  match t with
  | .leaf d => exact (hl d (by simp [leaves])).2
  | .node ms => exact ⟨treeMembers_here ms h.2, PlainLeaves.treeMembers_plain ms h.2 hl⟩

theorem PlainLeaves.treeMembers_plain (ms : List (Bytes × KeyTree Bytes Doc)) (h : ProperOf PlainKey ms)
    (hl : PlainLeaves (leavesOf ms)) : Doc.AllItems Doc.PlainHere (treeMembers ms) := by
  match ms with
  | [] => trivial
  | (k, t) :: ms =>
    rw [ProperOf] at h
    rw [leavesOf] at hl
    exact ⟨PlainLeaves.treeDoc_plain t h.2.2.1 fun d hd => hl d (by simp [hd]),
      PlainLeaves.treeMembers_plain ms h.2.2.2 fun d hd => hl d (by simp [hd])⟩
end

theorem treeMembers_plain (ms : List (Bytes × KeyTree Bytes Doc)) (h : ProperOf PlainKey ms)
    (hl : ScalarLeaves (leavesOf ms)) : Doc.AllItems Doc.PlainHere (treeMembers ms) :=
  hl.plain.treeMembers_plain ms h

theorem mem_treeMembers {ms : List (Bytes × KeyTree Bytes Doc)} {k : Bytes} {t : KeyTree Bytes Doc}
    (h : (k, t) ∈ ms) : ∃ comma, (Slot.compact k comma, treeDoc t) ∈ treeMembers ms := by
  induction ms with
  | nil => cases h
  | cons m ms ih =>
    obtain ⟨k', t'⟩ := m
    rw [treeMembers]
    rcases List.mem_cons.mp h with heq | h
    · rw [Prod.mk.injEq] at heq
      exact ⟨_, by rw [heq.1, heq.2]; exact List.mem_cons_self⟩
    · exact (ih h).imp fun _ => List.mem_cons_of_mem _

/-- The values of the tree are members of the document. -/
theorem memberAt_treeMembers {ms : List (Bytes × KeyTree Bytes Doc)} {p : List Bytes} {d : Doc}
    (h : At ms p d) : Doc.MemberAt (treeMembers ms) p d := by
  induction h with
  | @leaf ms k d hm =>
    obtain ⟨comma, hm⟩ := mem_treeMembers hm
    exact .here hm
  | @node ms ts k p d hm _ ih =>
    obtain ⟨comma, hm⟩ := mem_treeMembers hm
    exact .inside hm ih

end Espbase.Lib
