import Espbase.Lib.KeyTree
import Mathlib.Data.List.Induction

namespace Espbase.Lib

namespace KeyTree
variable {κ α : Type}

/-- The values in a tree, with the paths that lead to them. -/
inductive At : List (κ × KeyTree κ α) → List κ → α → Prop where
  | leaf {ms : List (κ × KeyTree κ α)} {k : κ} {a : α} (h : (k, .leaf a) ∈ ms) : At ms [k] a
  | node {ms ts : List (κ × KeyTree κ α)} {k : κ} {p : List κ} {a : α} (h : (k, .node ts) ∈ ms)
    (ht : At ts p a) : At ms (k :: p) a

mutual
/-- The keys meet `ok` and are different within each node, and no inner node is empty. -/
def Proper (ok : κ → Prop) : KeyTree κ α → Prop
  | .leaf _ => True
  | .node ms => ms ≠ [] ∧ ProperOf ok ms

def ProperOf (ok : κ → Prop) : List (κ × KeyTree κ α) → Prop
  | [] => True
  | (k, t) :: ms => ok k ∧ k ∉ ms.map Prod.fst ∧ t.Proper ok ∧ ProperOf ok ms
end

theorem At.mono {ms ms' : List (κ × KeyTree κ α)} (hsub : ms ⊆ ms') {p : List κ} {a : α}
    (h : At ms p a) : At ms' p a := by
  cases h with
  | leaf h => exact .leaf (hsub h)
  | node h ht => exact .node (hsub h) ht

theorem ProperOf.append (ok : κ → Prop) (ms : List (κ × KeyTree κ α)) (k : κ) (t : KeyTree κ α)
    (h : ProperOf ok ms) (hk : ok k) (hnew : k ∉ ms.map Prod.fst) (ht : t.Proper ok) :
    ProperOf ok (ms ++ [(k, t)]) := by
  induction ms with
  | nil => exact ⟨hk, by simp, ht, trivial⟩
  | cons m ms ih =>
    obtain ⟨k', t'⟩ := m
    rw [ProperOf] at h
    rw [List.map_cons, List.mem_cons, not_or] at hnew
    refine ⟨h.1, ?_, h.2.2.1, ih h.2.2.2 hnew.2⟩
    show k' ∉ (ms ++ [(k, t)]).map Prod.fst
    rw [List.map_append, List.mem_append, not_or]
    exact ⟨h.2.1, by simpa using Ne.symm hnew.1⟩

/-- Every key of a proper tree leads to a value. -/
theorem exists_at (ok : κ → Prop) (t : KeyTree κ α) (ht : t.Proper ok) (ms : List (κ × KeyTree κ α))
    (k : κ) (h : (k, t) ∈ ms) : ∃ p a, At ms (k :: p) a := by
  match t with
  | .leaf a => exact ⟨[], a, .leaf h⟩
  | .node [] => exact absurd rfl ht.1
  | .node ((k', t') :: ts) =>
    have hts := ht.2
    rw [ProperOf] at hts
    obtain ⟨p, a, ha⟩ := exists_at ok t' hts.2.2.1 ((k', t') :: ts) k' (by simp)
    exact ⟨_, a, .node h ha⟩

theorem ProperOf.of_mem (ok : κ → Prop) (ms : List (κ × KeyTree κ α)) (h : ProperOf ok ms) (k : κ)
    (t : KeyTree κ α) (hm : (k, t) ∈ ms) : ok k ∧ t.Proper ok := by
  induction ms with
  | nil => cases hm
  | cons m ms ih =>
    obtain ⟨k', t'⟩ := m
    rw [ProperOf] at h
    rcases List.mem_cons.mp hm with heq | hm
    · rw [Prod.mk.injEq] at heq
      exact ⟨heq.1 ▸ h.1, heq.2 ▸ h.2.2.1⟩
    · exact ih h.2.2.2 hm

variable [DecidableEq κ]

section enter
variable (k : κ) (f : List (κ × KeyTree κ α) → List (κ × KeyTree κ α))

theorem node_mem_enter (ms : List (κ × KeyTree κ α)) : ∃ ts, (k, .node (f ts)) ∈ enter k f ms := by
  induction ms with
  | nil => exact ⟨[], by simp [enter]⟩
  | cons m ms ih =>
    obtain ⟨k', t⟩ := m
    obtain ⟨ts, h⟩ := ih
    cases t with
    | leaf b => exact ⟨ts, List.mem_cons_of_mem _ h⟩
    | node us =>
      rw [enter]
      split_ifs with hk
      · exact ⟨us, by simp [hk]⟩
      · exact ⟨ts, List.mem_cons_of_mem _ h⟩

/-- A member stays, or it is the node that is entered. -/
theorem mem_enter_of_mem (ms : List (κ × KeyTree κ α)) (k' : κ) (t : KeyTree κ α) (h : (k', t) ∈ ms) :
    (k', t) ∈ enter k f ms ∨ ∃ ts, t = .node ts ∧ (k', .node (f ts)) ∈ enter k f ms := by
  induction ms with
  | nil => cases h
  | cons m ms ih =>
    obtain ⟨k1, t1⟩ := m
    have hlater (e : κ × KeyTree κ α) (h : (k', t) ∈ ms) : (k', t) ∈ e :: enter k f ms ∨
        ∃ ts, t = .node ts ∧ (k', .node (f ts)) ∈ e :: enter k f ms := by
      rcases ih h with hin | ⟨ts, ht, hm⟩
      · exact .inl (List.mem_cons_of_mem _ hin)
      · exact .inr ⟨ts, ht, List.mem_cons_of_mem _ hm⟩
    cases t1 with
    | leaf b =>
      rw [enter]
      rcases List.mem_cons.mp h with heq | h
      · exact .inl (by rw [heq]; simp)
      · exact hlater _ h
    | node us =>
      rw [enter]
      split_ifs with hk
      · rcases List.mem_cons.mp h with heq | h
        · rw [Prod.mk.injEq] at heq
          exact .inr ⟨us, heq.2, by rw [heq.1]; simp⟩
        · exact .inl (List.mem_cons_of_mem _ h)
      · rcases List.mem_cons.mp h with heq | h
        · exact .inl (by rw [heq]; simp)
        · exact hlater _ h

/-- A member was there before, or it is the node that is entered. -/
theorem mem_of_mem_enter (ms : List (κ × KeyTree κ α)) (k' : κ) (t : KeyTree κ α)
    (h : (k', t) ∈ enter k f ms) :
    (k', t) ∈ ms ∨ k' = k ∧ ∃ ts, t = .node (f ts) ∧ ((k, .node ts) ∈ ms ∨ ts = []) := by
  induction ms with
  | nil =>
    rw [enter, List.mem_singleton, Prod.mk.injEq] at h
    exact .inr ⟨h.1, [], h.2, .inr rfl⟩
  | cons m ms ih =>
    obtain ⟨k1, t1⟩ := m
    have hlater (h : (k', t) ∈ enter k f ms) : (k', t) ∈ (k1, t1) :: ms ∨
        k' = k ∧ ∃ ts, t = .node (f ts) ∧ ((k, .node ts) ∈ (k1, t1) :: ms ∨ ts = []) := by
      rcases ih h with hin | ⟨hk, ts, ht, hm⟩
      · exact .inl (List.mem_cons_of_mem _ hin)
      · exact .inr ⟨hk, ts, ht, hm.imp (List.mem_cons_of_mem _) id⟩
    cases t1 with
    | leaf b =>
      rw [enter] at h
      rcases List.mem_cons.mp h with heq | h
      · exact .inl (by rw [heq]; simp)
      · exact hlater h
    | node us =>
      rw [enter] at h
      split_ifs at h with hk
      · rcases List.mem_cons.mp h with heq | h
        · rw [Prod.mk.injEq] at heq
          exact .inr ⟨heq.1.trans hk, us, heq.2, .inl (by simp [hk])⟩
        · exact .inl (List.mem_cons_of_mem _ h)
      · rcases List.mem_cons.mp h with heq | h
        · exact .inl (by rw [heq]; simp)
        · exact hlater h

/-- The keys stay, or the entered one is new. -/
theorem keys_enter (ms : List (κ × KeyTree κ α)) (k' : κ) :
    k' ∈ (enter k f ms).map Prod.fst ↔ k' ∈ ms.map Prod.fst ∨ k' = k := by
  induction ms with
  | nil => simp [enter]
  | cons m ms ih =>
    obtain ⟨k1, t⟩ := m
    cases t with
    | leaf b =>
      rw [enter, List.map_cons, List.map_cons, List.mem_cons, List.mem_cons, ih, or_assoc]
    | node us =>
      rw [enter]
      split_ifs with hk
      · simp only [List.map_cons, List.mem_cons, hk]
        tauto
      · rw [List.map_cons, List.map_cons, List.mem_cons, List.mem_cons, ih, or_assoc]

theorem ProperOf.enter (ok : κ → Prop) (ms : List (κ × KeyTree κ α)) (h : ProperOf ok ms) (hk : ok k)
    (hleaf : ∀ a, (k, .leaf a) ∉ ms)
    (hf : ∀ ts, ((k, .node ts) ∈ ms ∨ ts = []) → ProperOf ok ts → f ts ≠ [] ∧ ProperOf ok (f ts)) :
    ProperOf ok (enter k f ms) := by
  induction ms with
  | nil => exact ⟨hk, by simp, hf [] (.inr rfl) trivial, trivial⟩
  | cons m ms ih =>
    obtain ⟨k1, t⟩ := m
    rw [ProperOf] at h
    have hrest := ih h.2.2.2 (fun a hm => hleaf a (List.mem_cons_of_mem _ hm)) fun ts ht =>
      hf ts (ht.imp (List.mem_cons_of_mem _) id)
    cases t with
    | leaf b =>
      have hne : k1 ≠ k := fun he => hleaf b (by simp [he])
      rw [KeyTree.enter, ProperOf, keys_enter]
      exact ⟨h.1, not_or.mpr ⟨h.2.1, hne⟩, trivial, hrest⟩
    | node us =>
      rw [KeyTree.enter]
      split_ifs with he
      · exact ⟨h.1, h.2.1, hf us (.inl (by simp [he])) h.2.2.1.2, h.2.2.2⟩
      · rw [ProperOf, keys_enter]
        exact ⟨h.1, not_or.mpr ⟨h.2.1, he⟩, h.2.2.1, hrest⟩

end enter

theorem insert_ne_nil (p : List κ) (a : α) (ms : List (κ × KeyTree κ α)) (hp : p ≠ []) :
    insert p a ms ≠ [] := by
  match p with
  | [] => exact absurd rfl hp
  | [k] => simp [insert]
  | k :: k' :: p =>
    obtain ⟨ts, h⟩ := node_mem_enter k (insert (k' :: p) a) ms
    exact List.ne_nil_of_mem h

/-- An inserted value is in the tree. -/
theorem at_insert_self (p : List κ) (a : α) (ms : List (κ × KeyTree κ α)) (hp : p ≠ []) :
    At (insert p a ms) p a := by
  induction p generalizing ms with
  | nil => exact absurd rfl hp
  | cons k p ih =>
    cases p with
    | nil => exact .leaf (by simp [insert])
    | cons k' p =>
      obtain ⟨ts, h⟩ := node_mem_enter k (insert (k' :: p) a) ms
      exact .node h (ih ts (by simp))

/-- What was in the tree stays in it. -/
theorem at_insert_of_at (p : List κ) (a : α) (ms : List (κ × KeyTree κ α)) (q : List κ) (b : α)
    (h : At ms q b) : At (insert p a ms) q b := by
  induction p generalizing ms q with
  | nil => exact h
  | cons k p ih =>
    cases p with
    | nil => exact h.mono (List.subset_append_left _ _)
    | cons k' p =>
      show At (enter k (insert (k' :: p) a) ms) q b
      cases h with
      | leaf hm =>
        rcases mem_enter_of_mem k (insert (k' :: p) a) ms _ _ hm with hm' | ⟨ts, ht, -⟩
        · exact .leaf hm'
        · cases ht
      | node hm ht =>
        rcases mem_enter_of_mem k (insert (k' :: p) a) ms _ _ hm with hm' | ⟨ts, hts, hm'⟩
        · exact .node hm' ht
        · cases hts
          exact .node hm' (ih _ _ ht)

/-- Inserting at a path that neither extends nor is extended by one in the tree keeps it proper. -/
theorem ProperOf.insert (ok : κ → Prop) (p : List κ) (a : α) (ms : List (κ × KeyTree κ α))
    (hp : p ≠ []) (h : ProperOf ok ms) (hok : ∀ k ∈ p, ok k)
    (hfree : ∀ q b, At ms q b → ¬ p <+: q ∧ ¬ q <+: p) : ProperOf ok (insert p a ms) := by
  induction p generalizing ms with
  | nil => exact absurd rfl hp
  | cons k p ih =>
    cases p with
    | nil =>
      refine ProperOf.append ok ms k (.leaf a) h (hok k (by simp)) ?_ trivial
      intro hmem
      obtain ⟨⟨k', t⟩, hm, rfl⟩ := List.mem_map.mp hmem
      obtain ⟨q, b, hat⟩ := exists_at ok t (h.of_mem ok ms k' t hm).2 ms k' hm
      exact (hfree _ b hat).1 ⟨q, rfl⟩
    | cons k' p =>
      refine ProperOf.enter k _ ok ms h (hok k (by simp)) ?_ ?_
      · exact fun b hm => (hfree [k] b (.leaf hm)).2 ⟨k' :: p, rfl⟩
      · intro ts hts hproper
        refine ⟨insert_ne_nil _ a ts (by simp), ih ts (by simp) hproper (fun j hj => hok j (by simp [hj])) ?_⟩
        intro q b hat
        rcases hts with hm | rfl
        · have := hfree (k :: q) b (.node hm hat)
          simpa [List.cons_prefix_cons] using this
        · cases hat with
          | leaf hm => cases hm
          | node hm _ => cases hm

/-- Nothing but the inserted value is new. -/
theorem at_of_at_insert (p : List κ) (a : α) (ms : List (κ × KeyTree κ α)) (q : List κ) (b : α)
    (h : At (insert p a ms) q b) : (q = p ∧ b = a) ∨ At ms q b := by
  induction p generalizing ms q with
  | nil => exact .inr h
  | cons k p ih =>
    cases p with
    | nil =>
      rw [KeyTree.insert] at h
      cases h with
      | leaf hm =>
        rcases List.mem_append.mp hm with hm | hm
        · exact .inr (.leaf hm)
        · rw [List.mem_singleton, Prod.mk.injEq, leaf.injEq] at hm
          exact .inl ⟨by rw [hm.1], hm.2⟩
      | node hm ht =>
        rcases List.mem_append.mp hm with hm | hm
        · exact .inr (.node hm ht)
        · simp at hm
    | cons k' p =>
      rw [KeyTree.insert] at h
      cases h with
      | leaf hm =>
        rcases mem_of_mem_enter k _ ms _ _ hm with hm | ⟨-, ts, ht, -⟩
        · exact .inr (.leaf hm)
        · cases ht
      | node hm hat =>
        rcases mem_of_mem_enter k _ ms _ _ hm with hm | ⟨rfl, ts, ht, hts⟩
        · exact .inr (.node hm hat)
        · rw [node.injEq] at ht
          subst ht
          rcases ih ts _ hat with ⟨rfl, rfl⟩ | hat
          · exact .inl ⟨rfl, rfl⟩
          · rcases hts with hm | rfl
            · exact .inr (.node hm hat)
            · cases hat with
              | leaf hm => cases hm
              | node hm _ => cases hm

/-- Entries with prefix-free paths build a proper tree, which has exactly their values. -/
theorem build_proper (ok : κ → Prop) (es : List (List κ × α)) (hne : ∀ e ∈ es, e.1 ≠ [])
    (hok : ∀ e ∈ es, ∀ k ∈ e.1, ok k)
    (hfree : es.Pairwise fun e e' => ¬ e.1 <+: e'.1 ∧ ¬ e'.1 <+: e.1) :
    ProperOf ok (build es) ∧ ∀ p a, At (build es) p a ↔ (p, a) ∈ es := by
  induction es using List.reverseRecOn with
  | nil =>
    refine ⟨trivial, fun p a => ⟨?_, nofun⟩⟩
    intro h
    cases h with
    | leaf hm => cases hm
    | node hm _ => cases hm
  | append_singleton es e ih =>
    obtain ⟨p, a⟩ := e
    rw [List.pairwise_append] at hfree
    obtain ⟨hproper, hat⟩ := ih (fun e he => hne e (by simp [he])) (fun e he => hok e (by simp [he]))
      hfree.1
    have hbuild : build (es ++ [(p, a)]) = insert p a (build es) := by
      rw [build, insertAll, List.foldl_append]
      rfl
    have hp : p ≠ [] := hne (p, a) (by simp)
    rw [hbuild]
    refine ⟨hproper.insert ok p a _ hp (hok (p, a) (by simp)) ?_, fun q b => ⟨?_, ?_⟩⟩
    · intro q b hq
      have := hfree.2.2 (q, b) ((hat q b).mp hq) (p, a) (by simp)
      exact ⟨this.2, this.1⟩
    · intro h
      rcases at_of_at_insert p a _ q b h with ⟨rfl, rfl⟩ | h
      · simp
      · exact List.mem_append_left _ ((hat q b).mp h)
    · intro h
      rcases List.mem_append.mp h with h | h
      · exact at_insert_of_at p a _ q b ((hat q b).mpr h)
      · rw [List.mem_singleton, Prod.mk.injEq] at h
        rw [h.1, h.2]
        exact at_insert_self p a _ hp

end KeyTree

end Espbase.Lib
