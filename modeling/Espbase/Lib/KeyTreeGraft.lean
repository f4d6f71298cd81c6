import Espbase.Lib.KeyTree

namespace Espbase.Lib

namespace KeyTree
variable {κ α β : Type}

mutual
/-- Puts a tree in the place of every value. -/
def graft (f : α → KeyTree κ β) : KeyTree κ α → KeyTree κ β
  | .leaf a => f a
  | .node ms => .node (graftOf f ms)

def graftOf (f : α → KeyTree κ β) : List (κ × KeyTree κ α) → List (κ × KeyTree κ β)
  | [] => []
  | (k, t) :: ms => (k, t.graft f) :: graftOf f ms
end

/-- Puts entries in the place of every value, below its path. -/
def spread (g : α → List (List κ × β)) (es : List (List κ × α)) : List (List κ × β) :=
  es.flatMap fun e => (g e.2).map fun e' => (e.1 ++ e'.1, e'.2)

/-- No path is the beginning of another. -/
def PrefixFree (es : List (List κ × α)) : Prop :=
  es.Pairwise fun e e' => ¬ e.1 <+: e'.1 ∧ ¬ e'.1 <+: e.1

instance [DecidableEq κ] (es : List (List κ × α)) : Decidable (PrefixFree es) :=
  inferInstanceAs (Decidable (es.Pairwise _))

@[simp] theorem spread_nil (g : α → List (List κ × β)) : spread g [] = [] := rfl

theorem spread_cons (g : α → List (List κ × β)) (e : List κ × α) (es : List (List κ × α)) :
    spread g (e :: es) = ((g e.2).map fun e' => (e.1 ++ e'.1, e'.2)) ++ spread g es := rfl

theorem mem_spread (g : α → List (List κ × β)) (es : List (List κ × α)) (e : List κ × β) :
    e ∈ spread g es ↔ ∃ e' ∈ es, ∃ e'' ∈ g e'.2, (e'.1 ++ e''.1, e''.2) = e := by
  simp [spread, List.mem_flatMap]

theorem prefixFree_append {es es' : List (List κ × α)} (h : PrefixFree es) (h' : PrefixFree es')
    (hcross : ∀ e ∈ es, ∀ e' ∈ es', ¬ e.1 <+: e'.1 ∧ ¬ e'.1 <+: e.1) : PrefixFree (es ++ es') :=
  List.pairwise_append.mpr ⟨h, h', hcross⟩

theorem prefixFree_below (p : List κ) {es : List (List κ × α)} (h : PrefixFree es) :
    PrefixFree (es.map fun e => (p ++ e.1, e.2)) :=
  List.pairwise_map.mpr (h.imp fun he => by simpa [List.prefix_append_right_inj] using he)

/-- What stands below two paths has none of them in common when the paths have not. -/
theorem not_prefix_below {p q : List κ} (h : ¬ p <+: q ∧ ¬ q <+: p) (p' q' : List κ) :
    ¬ p ++ p' <+: q ++ q' := by
  intro hpre
  have hp : p <+: q ++ q' := (List.prefix_append p p').trans hpre
  rcases List.prefix_or_prefix_of_prefix hp (List.prefix_append q q') with hpq | hqp
  · exact h.1 hpq
  · exact h.2 hqp

/-- Entries below prefix-free paths are prefix-free. -/
theorem PrefixFree.spread {es : List (List κ × α)} (h : PrefixFree es) (g : α → List (List κ × β))
    (hg : ∀ e ∈ es, PrefixFree (g e.2)) : PrefixFree (spread g es) := by
  induction es with
  | nil => exact List.Pairwise.nil
  | cons e es ih =>
    obtain ⟨hhead, hrest⟩ := List.pairwise_cons.mp h
    rw [spread_cons]
    refine prefixFree_append (prefixFree_below e.1 (hg e (by simp)))
      (ih hrest fun e' he' => hg e' (by simp [he'])) ?_
    intro e₁ he₁ e₂ he₂
    obtain ⟨e₁', -, rfl⟩ := List.mem_map.mp he₁
    obtain ⟨e', he', e₂', -, rfl⟩ := (mem_spread g es e₂).mp he₂
    have hfree := hhead e' he'
    exact ⟨not_prefix_below hfree _ _, not_prefix_below hfree.symm _ _⟩

variable [DecidableEq κ] (k : κ)

theorem under_append (es es' : List (List κ × α)) : under k (es ++ es') = under k es ++ under k es' := by
  simp [under]

theorem others_append (es es' : List (List κ × α)) : others k (es ++ es') = others k es ++ others k es' := by
  simp [others]

/-- An entry that goes through a key is under it. -/
theorem cons_through (e : List κ × α) (es : List (List κ × α)) (h : through k e.1 = true) :
    under k (e :: es) = (e.1.tail, e.2) :: under k es ∧ others k (e :: es) = others k es := by
  simp [under, others, h]

theorem cons_apart (e : List κ × α) (es : List (List κ × α)) (h : through k e.1 = false) :
    under k (e :: es) = under k es ∧ others k (e :: es) = e :: others k es := by
  simp [under, others, h]

theorem through_cons (p : List κ) (hp : p ≠ []) : through k (k :: p) = true := by
  obtain ⟨k', p, rfl⟩ := List.exists_cons_of_ne_nil hp
  exact decide_eq_true rfl

theorem not_through_cons {k' : κ} (h : k' ≠ k) (p : List κ) : through k (k' :: p) = false := by
  cases p with
  | nil => rfl
  | cons k'' p => exact decide_eq_false h

/-- All entries below a key go through it. -/
theorem through_below (es : List (List κ × α)) (hp : ∀ e ∈ es, e.1 ≠ []) :
    under k (es.map fun e => (k :: e.1, e.2)) = es ∧ others k (es.map fun e => (k :: e.1, e.2)) = [] := by
  induction es with
  | nil => exact ⟨rfl, rfl⟩
  | cons e es ih =>
    obtain ⟨hunder, hothers⟩ := ih fun e he => hp e (by simp [he])
    obtain ⟨hcons, hcons'⟩ := cons_through k (k :: e.1, e.2) (es.map fun e => (k :: e.1, e.2))
      (through_cons k e.1 (hp e (by simp)))
    rw [List.map_cons, hcons, hcons', hunder, hothers]
    exact ⟨rfl, rfl⟩

/-- No entry that does not start with a key goes through it. -/
theorem through_apart (es : List (List κ × α)) (h : ∀ e ∈ es, ¬ [k] <+: e.1) :
    under k es = [] ∧ others k es = es := by
  induction es with
  | nil => exact ⟨rfl, rfl⟩
  | cons e es ih =>
    obtain ⟨hunder, hothers⟩ := ih fun e he => h e (by simp [he])
    have hnot : through k e.1 = false := by
      have hk := h e (by simp)
      cases hp : e.1 with
      | nil => rfl
      | cons k' p =>
        rw [hp] at hk
        exact not_through_cons k (fun heq => hk ⟨p, by rw [heq]; rfl⟩) p
    obtain ⟨hcons, hcons'⟩ := cons_apart k e es hnot
    rw [hcons, hcons', hunder, hothers]
    exact ⟨rfl, rfl⟩

/-- Entries below a key make an inner node under it. -/
theorem build_below (es rest : List (List κ × α)) (hne : es ≠ []) (hp : ∀ e ∈ es, e.1 ≠ []) :
    build (es.map (fun e => (k :: e.1, e.2)) ++ rest) =
      (k, .node (build (es ++ under k rest))) :: build (others k rest) := by
  obtain ⟨⟨p, a⟩, es, rfl⟩ := List.exists_cons_of_ne_nil hne
  obtain ⟨k', p, rfl⟩ := List.exists_cons_of_ne_nil (hp (p, a) (by simp))
  obtain ⟨hunder, hothers⟩ := through_below k es fun e he => hp e (by simp [he])
  rw [List.map_cons, List.cons_append, build_cons_node, under_append, others_append, hunder, hothers]
  rfl

/-- The entries below a key are spread below it. -/
theorem through_spread (g : α → List (List κ × β)) (es : List (List κ × α))
    (hp : ∀ e ∈ es, e.1 ≠ [] ∧ e.1 ≠ [k]) :
    under k (spread g es) = spread g (under k es) ∧ others k (spread g es) = spread g (others k es) := by
  induction es with
  | nil => exact ⟨rfl, rfl⟩
  | cons e es ih =>
    obtain ⟨p, a⟩ := e
    obtain ⟨hunder, hothers⟩ := ih fun e he => hp e (by simp [he])
    obtain ⟨hne, hk⟩ := hp (p, a) (by simp)
    obtain ⟨k', p, rfl⟩ := List.exists_cons_of_ne_nil hne
    rw [spread_cons, under_append, others_append, hunder, hothers]
    by_cases heq : k' = k
    · subst heq
      have hp' : p ≠ [] := fun h => hk (by rw [h])
      have hbelow := through_below k' ((g a).map fun e' => (p ++ e'.1, e'.2)) (by
        intro e he
        obtain ⟨e', -, rfl⟩ := List.mem_map.mp he
        exact List.append_ne_nil_of_left_ne_nil hp' _)
      rw [List.map_map] at hbelow
      obtain ⟨hcons, hcons'⟩ := cons_through k' (k' :: p, a) es (through_cons k' p hp')
      rw [hcons, hcons', spread_cons]
      exact ⟨congrArg (· ++ _) hbelow.1, congrArg (· ++ _) hbelow.2⟩
    · have hapart := through_apart k ((g a).map fun e' => (k' :: p ++ e'.1, e'.2)) (by
        intro e he
        obtain ⟨e', -, rfl⟩ := List.mem_map.mp he
        rw [List.cons_append, List.cons_prefix_cons]
        exact fun h => heq h.1.symm)
      obtain ⟨hcons, hcons'⟩ := cons_apart k (k' :: p, a) es (not_through_cons k heq p)
      rw [hcons, hcons', spread_cons, hapart.1, hapart.2]
      exact ⟨rfl, rfl⟩

/-- The entries make the tree: one value alone, or members with paths of their own. -/
inductive Makes : List (List κ × β) → KeyTree κ β → Prop where
  | value (b : β) : Makes [([], b)] (.leaf b)
  | members {es : List (List κ × β)} (hne : es ≠ []) (hp : ∀ e ∈ es, e.1 ≠ []) :
    Makes es (.node (build es))

theorem Makes.ne_nil {es : List (List κ × β)} {t : KeyTree κ β} (h : Makes es t) : es ≠ [] := by
  cases h with
  | value b => exact List.cons_ne_nil _ _
  | members hne _ => exact hne

/-- What is below a key that nothing else starts with. -/
theorem Makes.build_below {es : List (List κ × β)} {t : KeyTree κ β} (h : Makes es t)
    (rest : List (List κ × β)) (hunder : under k rest = []) (hothers : others k rest = rest) :
    build (es.map (fun e => (k :: e.1, e.2)) ++ rest) = (k, t) :: build rest := by
  cases h with
  | value b => exact build_cons_leaf k b rest
  | members hne hp => rw [KeyTree.build_below k es rest hne hp, hunder, hothers, List.append_nil]

/-- The length of all paths together. -/
def size : List (List κ × α) → Nat
  | [] => 0
  | e :: es => e.1.length + size es

theorem size_through (es : List (List κ × α)) : size (under k es) ≤ size es ∧ size (others k es) ≤ size es := by
  induction es with
  | nil => exact ⟨Nat.le_refl _, Nat.le_refl _⟩
  | cons e es ih =>
    have hcons : size (e :: es) = e.1.length + size es := rfl
    cases h : through k e.1 with
    | true =>
      obtain ⟨hunder, hothers⟩ := cons_through k e es h
      have hcons' : size ((e.1.tail, e.2) :: under k es) = e.1.length - 1 + size (under k es) := by simp [size]
      rw [hunder, hothers, hcons, hcons']
      omega
    | false =>
      obtain ⟨hunder, hothers⟩ := cons_apart k e es h
      have hcons' : size (e :: others k es) = e.1.length + size (others k es) := by simp [size]
      rw [hunder, hothers, hcons, hcons']
      omega

theorem eq_cons_of_through {k : κ} {p : List κ} (h : through k p = true) : p.tail ≠ [] ∧ k :: p.tail = p := by
  rcases p with _ | ⟨k₁, _ | ⟨k₂, p⟩⟩
  · cases h
  · cases h
  · have heq : k₁ = k := of_decide_eq_true h
    exact ⟨List.cons_ne_nil _ _, by rw [heq]; rfl⟩

theorem mem_under (es : List (List κ × α)) (e : List κ × α) (h : e ∈ under k es) :
    e.1 ≠ [] ∧ (k :: e.1, e.2) ∈ es := by
  simp only [under, List.mem_map, List.mem_filter] at h
  obtain ⟨e', ⟨hm, hthrough⟩, rfl⟩ := h
  obtain ⟨hne, heq⟩ := eq_cons_of_through hthrough
  exact ⟨hne, by rw [heq]; exact hm⟩

theorem PrefixFree.under {es : List (List κ × α)} (h : PrefixFree es) : PrefixFree (under k es) := by
  refine List.pairwise_map.mpr ((h.filter _).imp_of_mem fun {e e'} he he' hfree => ?_)
  have heq := (eq_cons_of_through (List.mem_filter.mp he).2).2
  have heq' := (eq_cons_of_through (List.mem_filter.mp he').2).2
  rw [← heq, ← heq', List.cons_prefix_cons, List.cons_prefix_cons] at hfree
  exact ⟨fun hpre => hfree.1 ⟨rfl, hpre⟩, fun hpre => hfree.2 ⟨rfl, hpre⟩⟩

/-- The entries of an inner node. -/
theorem PrefixFree.enter {k : κ} {p : List κ} {a : α} {es : List (List κ × α)}
    (h : PrefixFree ((k :: p, a) :: es)) : PrefixFree ((p, a) :: KeyTree.under k es) := by
  obtain ⟨hhead, hrest⟩ := List.pairwise_cons.mp h
  refine List.pairwise_cons.mpr ⟨?_, PrefixFree.under k hrest⟩
  intro e he
  have hfree := hhead _ (mem_under k es e he).2
  rw [List.cons_prefix_cons, List.cons_prefix_cons] at hfree
  exact ⟨fun hpre => hfree.1 ⟨rfl, hpre⟩, fun hpre => hfree.2 ⟨rfl, hpre⟩⟩

theorem PrefixFree.others {es : List (List κ × α)} (h : PrefixFree es) : PrefixFree (others k es) :=
  h.filter _

/-- Entries in the place of values make the tree with trees in the place of values. -/
theorem build_spread (f : α → KeyTree κ β) (g : α → List (List κ × β)) (es : List (List κ × α))
    (hg : ∀ e ∈ es, Makes (g e.2) (f e.2)) (hp : ∀ e ∈ es, e.1 ≠ []) (hfree : PrefixFree es) :
    build (spread g es) = graftOf f (build es) := by
  induction hn : size es using Nat.strongRecOn generalizing es with
  | ind n ih =>
    cases es with
    | nil => rfl
    | cons e es =>
      obtain ⟨p, a⟩ := e
      obtain ⟨k, p, rfl⟩ := List.exists_cons_of_ne_nil (hp (p, a) (by simp))
      have hrest : PrefixFree es := (List.pairwise_cons.mp hfree).2
      have hhead := (List.pairwise_cons.mp hfree).1
      have hsize : size ((k :: p, a) :: es) = p.length + 1 + size es := by simp [size]
      obtain ⟨hunder, hothers⟩ := size_through k es
      have hmakes := hg (k :: p, a) (by simp)
      have hpaths : ∀ e ∈ es, e.1 ≠ [] ∧ e.1 ≠ [k] := by
        intro e he
        refine ⟨hp e (by simp [he]), fun heq => (hhead e he).2 ?_⟩
        rw [heq]
        exact ⟨p, rfl⟩
      obtain ⟨hunder', hothers'⟩ := through_spread k g es hpaths
      have hlater : build (spread g (others k es)) = graftOf f (build (others k es)) := by
        refine ih _ (by omega) _ (fun e he => hg e ?_) (fun e he => hp e ?_) (hrest.others k) rfl
        · exact List.mem_cons_of_mem _ (List.mem_of_mem_filter he)
        · exact List.mem_cons_of_mem _ (List.mem_of_mem_filter he)
      cases p with
      | nil =>
        have hapart := through_apart k es fun e he => (hhead e he).1
        rw [hapart.2] at hlater
        rw [hapart.1] at hunder'
        rw [hapart.2] at hothers'
        rw [build_cons_leaf, graftOf, graft, ← hlater]
        exact hmakes.build_below k (spread g es) hunder' hothers'
      | cons k' p =>
        have hinner : build (spread g ((k' :: p, a) :: under k es)) =
            graftOf f (build ((k' :: p, a) :: under k es)) := by
          have hsize' : size ((k' :: p, a) :: under k es) = p.length + 1 + size (under k es) := by simp [size]
          rw [List.length_cons] at hsize
          refine ih _ (by omega) _ ?_ ?_ hfree.enter rfl
          · intro e he
            rcases List.mem_cons.mp he with rfl | he
            · exact hmakes
            · exact hg (k :: e.1, e.2) (List.mem_cons_of_mem _ (mem_under k es e he).2)
          · intro e he
            rcases List.mem_cons.mp he with rfl | he
            · exact List.cons_ne_nil _ _
            · exact (mem_under k es e he).1
        have hpaths' : ∀ e ∈ (g a).map fun e' => (k' :: p ++ e'.1, e'.2), e.1 ≠ [] := by
          intro e he
          obtain ⟨e', -, rfl⟩ := List.mem_map.mp he
          exact List.cons_ne_nil _ _
        have hbelow := build_below k _ (spread g es) (fun h => hmakes.ne_nil (List.map_eq_nil_iff.mp h)) hpaths'
        rw [hunder', hothers', List.map_map] at hbelow
        rw [build_cons_node, graftOf, graft, ← hinner, ← hlater]
        exact hbelow

end KeyTree

end Espbase.Lib
