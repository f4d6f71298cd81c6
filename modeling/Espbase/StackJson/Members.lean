import Espbase.StackJson.TextLookups
import Espbase.StackJson.Outcome
import Mathlib.Data.List.Nodup

namespace Espbase.StackJson

open Espbase.Lib

/-- A parse that leaves a binding as if it had not matched. -/
def Untouched (b b' : ParseNode) : Prop := b'.isSet = false ∧ b'.isNull = false ∧ b'.kind = b.kind

section untouched
variable [FloatChars]

theorem assigned_isSet (e : Lookup) (n : ParseNode) : (n.assigned e).isSet = true := by
  have h := ParseNode.assign_eq e n
  generalize n.assigned e = n' at h
  unfold ParseNode.assign at h
  cases hk : n.kind with
  | bind target =>
    rw [hk] at h
    cases hc : coerceValue e.raw e.isNull target with
    | none => simp [hc] at h
    | some t =>
      simp only [hc, Option.bind_eq_bind, Option.bind_some, Option.some.injEq] at h
      simp [← h]
  | dynamic d =>
    simp only [hk, Option.some.injEq] at h
    simp [← h]
  | unknown d calls =>
    simp only [hk, Option.some.injEq] at h
    simp [← h]

theorem foldl_assigned_isSet (es : List Lookup) (b : ParseNode) (h : es ≠ [] ∨ b.isSet = true) :
    (es.foldl (fun n e => n.assigned e) b).isSet = true := by
  induction es generalizing b with
  | nil => simpa using h
  | cons e es ih =>
    rw [List.foldl_cons]
    exact ih (b.assigned e) (.inr (assigned_isSet e b))

theorem outcome_untouched_iff (before : List ParseNode) (b : ParseNode) (es : List Lookup) :
    Untouched b (outcome before b.reset es) ↔ ∀ e ∈ es, takes before b e = false := by
  have hsame (e : Lookup) : takes before b.reset e = takes before b e :=
    takes_congr _ _ _ _ _ rfl rfl
  constructor
  · rintro ⟨hset, -⟩ e he
    by_contra ht
    rw [Bool.not_eq_false] at ht
    have hne : es.filter (takes before b.reset) ≠ [] :=
      List.ne_nil_of_mem (List.mem_filter.mpr ⟨he, (hsame e).trans ht⟩)
    rw [outcome, foldl_assigned_isSet _ _ (.inl hne)] at hset
    cases hset
  · intro h
    have hnil : es.filter (takes before b.reset) = [] := by
      rw [List.filter_eq_nil_iff]
      intro e he
      rw [hsame e, h e he]
      exact Bool.false_ne_true
    rw [outcome, hnil]
    exact ⟨rfl, rfl, rfl⟩

/-- A parse of a JSON text gives a binding the lookups of the document that it takes. -/
theorem parse_jsonText (j : JsonText) (nodes : List ParseNode) (k : Nat) (b : ParseNode)
    (hk : nodes[k]? = some b) (hb : b.isCatchAll = false) :
    ∃ nodes', parse j.text nodes = some nodes' ∧
      nodes'[k]? = some (outcome (nodes.take k) b.reset (docLookups [] [] j.root)) := by
  rw [← lookups_jsonText]
  exact parse_binding j.text nodes k b hk hb

/-- A binding whose path no member has is left alone by exactly the documents in which nothing lies on
its path: no block at all, and no scalar that an earlier binding does not take. -/
theorem parse_absent_iff (j : JsonText) (nodes : List ParseNode) (k : Nat) (b : ParseNode)
    (hk : nodes[k]? = some b) (hb : b.isCatchAll = false) :
    ∃ nodes' b', parse j.text nodes = some nodes' ∧ nodes'[k]? = some b' ∧
      (((¬ ∃ d, j.root.HasMember b.path d) → Untouched b b') ↔
        (∃ d, j.root.HasMember b.path d) ∨
          ∀ e ∈ docLookups [] [] j.root, e.path <+: b.path → e.structural = false ∧
            ∃ m ∈ nodes.take k, m.isCatchAll = false ∧ e.path <+: m.path) := by
  obtain ⟨nodes', hp, hn⟩ := parse_jsonText j nodes k b hk hb
  refine ⟨nodes', _, hp, hn, ?_⟩
  rw [outcome_untouched_iff, ← Classical.or_iff_not_imp_left]
  have htakes (e : Lookup) : takes (nodes.take k) b e = false ↔ (e.path <+: b.path →
      e.structural = false ∧ ∃ m ∈ nodes.take k, m.isCatchAll = false ∧ e.path <+: m.path) := by
    have hany : (nodes.take k).any (bound e.path) = true ↔
        ∃ m ∈ nodes.take k, m.isCatchAll = false ∧ e.path <+: m.path := by
      rw [List.any_eq_true]
      refine exists_congr fun m => and_congr_right ?_
      intro _
      cases hall : m.isCatchAll with
      | true => simp [bound, hall]
      | false => simp [bound_iff e.path m hall]
    rw [← hany, ← bound_iff e.path b hb, takes]
    cases bound e.path b <;> cases e.structural <;> simp
  exact or_congr_right (forall₂_congr fun e _ => htakes e)

end untouched

/-- `{"a":1}` -/
def oneMember : JsonText where
  before := []
  root := .block true [(.compact (bytes "a") false, .scalar false (bytes "1"))] []
  after := []
  before_gap := .nil
  after_gap := .nil
  root_wf := by
    have hkey : (Slot.compact (bytes "a") false).WF true := Slot.compact_wf _ _ (by decide)
    have hone : IsPrimitive (bytes "1") := by simp [IsPrimitive, bytes, ch]
    exact ⟨⟨hkey, hone, fun h => absurd rfl h, trivial⟩, nofun⟩

theorem parse_absent_iff_oneMember :
    ∃ nodes' b', @parse keepFloats oneMember.text [intNode [bytes "b"]] = some nodes' ∧
      nodes'[0]? = some b' ∧
      (((¬ ∃ d, oneMember.root.HasMember [bytes "b"] d) → Untouched (intNode [bytes "b"]) b') ↔
        (∃ d, oneMember.root.HasMember [bytes "b"] d) ∨
          ∀ e ∈ docLookups [] [] oneMember.root, e.path <+: [bytes "b"] → e.structural = false ∧
            ∃ m ∈ ([] : List ParseNode), m.isCatchAll = false ∧ e.path <+: m.path) := by
  let _ := keepFloats
  exact parse_absent_iff oneMember [intNode [bytes "b"]] 0 (intNode [bytes "b"]) rfl rfl

/-- A binding below a scalar member is set by it, though it has no member of its own. -/
theorem parse_belowScalar_set :
    (¬ ∃ d, oneMember.root.HasMember [bytes "a", bytes "b"] d) ∧
      (@parse keepFloats oneMember.text [intNode [bytes "a", bytes "b"]]).map
        (List.map ParseNode.isSet) = some [true] := by
  refine ⟨?_, by decide⟩
  have hshort (p : List Bytes) (d : Doc) (hm : oneMember.root.HasMember p d) : p.length = 1 := by
    cases hm with
    | here h => rfl
    | inside h _ => simp at h
  rintro ⟨d, hm⟩
  exact absurd (hshort _ d hm) (by decide)

section lookups
variable {gap : Bytes → Prop}

theorem itemPops_eq_zero (items : List (Slot × Doc)) (h : ∀ m ∈ items, docPops m.1.key m.2 = 0) :
    itemPops items = 0 := by
  induction items with
  | nil => rfl
  | cons m items ih =>
    obtain ⟨s, d⟩ := m
    rw [itemPops, h (s, d) (by simp), ih fun m hm => h m (by simp [hm])]

/-- Members that lose no keys are looked up side by side. -/
theorem itemLookups_eq_flatMap (trail : List Bytes) (items : List (Slot × Doc))
    (h : ∀ m ∈ items, docPops m.1.key m.2 = 0) :
    itemLookups trail items = items.flatMap fun m => docLookups trail m.1.key m.2 := by
  induction items with
  | nil => rfl
  | cons m items ih =>
    obtain ⟨s, d⟩ := m
    rw [itemLookups, h (s, d) (by simp), cutTrail_zero, ih fun m hm => h m (by simp [hm]),
      List.flatMap_cons]

theorem docPops_objectFree (d : Doc) (h : d.ObjectFree) (key : Bytes) : docPops key d = 0 := by
  induction d generalizing key with
  | scalar isString raw => rfl
  | block curly items g ih =>
    have hcurly : curly = false := by
      have := Doc.all_head h
      cases curly
      · rfl
      · cases this
    have hitems : itemPops items = 0 := by
      apply itemPops_eq_zero
      exact fun m hm => ih m hm (Doc.all_of_mem h.2 hm) m.1.key
    rw [docPops, hitems, hcurly]
    simp

/-- A document loses no keys when its arrays hold no objects. -/
theorem docPops_sealed (d : Doc) (hkeyed : d.Keyed) (h : d.Sealed) (key : Bytes)
    (hkey : d.isObject = true → key ≠ []) : docPops key d = 0 := by
  induction d generalizing key with
  | scalar isString raw => rfl
  | block curly items gap ih =>
    have hitems : itemPops items = 0 := by
      apply itemPops_eq_zero
      intro m hm
      cases curly with
      | false => exact docPops_objectFree m.2 (Doc.all_of_mem h.1 hm) m.1.key
      | true => exact ih m hm (Doc.all_of_mem hkeyed.2 hm) (Doc.all_of_mem h.2 hm) m.1.key fun _ => hkeyed.1 m hm
    rw [docPops, hitems]
    cases curly with
    | false => simp
    | true => simp [hkey rfl]

theorem docPops_plain (d : Doc) (h : d.Plain) (key : Bytes) (hkey : d.isObject = true → key ≠ []) :
    docPops key d = 0 :=
  docPops_sealed d h.keyed h.sealed key hkey

/-- In an array without objects everything is looked up under no key. -/
theorem path_objectFree (d : Doc) (hwf : d.WFWith gap) (h : d.ObjectFree) (trail : List Bytes) (key : Bytes)
    (e : Lookup) (he : e ∈ docLookups trail key d) :
    e.path = trail ++ [key] ∨ e.path = trail ++ [[]] := by
  induction d generalizing key with
  | scalar isString raw =>
    rw [docLookups, List.mem_singleton] at he
    exact .inl (by rw [he]; rfl)
  | block curly items g ih =>
    have hcurly : curly = false := by
      have := Doc.all_head h
      cases curly
      · rfl
      · cases this
    subst hcurly
    have hpops : ∀ m ∈ items, docPops m.1.key m.2 = 0 := fun m hm =>
      docPops_objectFree m.2 (Doc.all_of_mem h.2 hm) m.1.key
    rw [docLookups, itemLookups_eq_flatMap _ _ hpops, List.mem_cons, List.mem_flatMap] at he
    rcases he with rfl | ⟨m, hm, he⟩
    · exact .inl rfl
    · rw [Doc.WFWith] at hwf
      obtain ⟨hslot, hd⟩ := Doc.wfWith_of_mem hwf.1 hm
      rw [hslot.key_nil] at he
      exact .inr ((ih m hm hd (Doc.all_of_mem h.2 hm) [] he).elim id id)

theorem plain_pops (items : List (Slot × Doc)) (hkeys : ∀ m ∈ items, m.1.key ≠ [])
    (h : ∀ m ∈ items, m.2.Plain) : ∀ m ∈ items, docPops m.1.key m.2 = 0 :=
  fun m hm => docPops_plain m.2 (h m hm) m.1.key fun _ => hkeys m hm

/-- A value is looked up under its key, or under none in an array, when no key is empty and no array
holds an object. -/
theorem path_sealed (d : Doc) (hwf : d.WFWith gap) (hkeyed : d.Keyed) (h : d.Sealed) (trail : List Bytes)
    (key : Bytes) (hkey : key ≠ []) (e : Lookup) (he : e ∈ docLookups trail key d) :
    ∃ k p, e.path = trail ++ k :: p ∧ (k = key ∨ k = [] ∧ p = []) := by
  induction d generalizing trail key with
  | scalar isString raw =>
    rw [docLookups, List.mem_singleton] at he
    exact ⟨key, [], by rw [he]; rfl, .inl rfl⟩
  | block curly items g ih =>
    cases curly with
    | false =>
      have hfree : ∀ m ∈ items, m.2.ObjectFree := fun m hm => Doc.all_of_mem h.1 hm
      rw [docLookups, itemLookups_eq_flatMap _ _ fun m hm => docPops_objectFree m.2 (hfree m hm) _,
        List.mem_cons, List.mem_flatMap] at he
      rcases he with rfl | ⟨m, hm, he⟩
      · exact ⟨key, [], rfl, .inl rfl⟩
      · rw [Doc.WFWith] at hwf
        obtain ⟨hslot, hd⟩ := Doc.wfWith_of_mem hwf.1 hm
        rw [hslot.key_nil] at he
        have hp := path_objectFree m.2 hd (hfree m hm) trail [] e he
        exact ⟨[], [], hp.elim id id, .inr ⟨rfl, rfl⟩⟩
    | true =>
      have hitems (m : Slot × Doc) (hm : m ∈ items) : m.2.Keyed ∧ m.2.Sealed :=
        ⟨Doc.all_of_mem hkeyed.2 hm, Doc.all_of_mem h.2 hm⟩
      have hpops : ∀ m ∈ items, docPops m.1.key m.2 = 0 := fun m hm =>
        docPops_sealed m.2 (hitems m hm).1 (hitems m hm).2 m.1.key fun _ => hkeyed.1 m hm
      rw [docLookups, itemLookups_eq_flatMap _ _ hpops, List.mem_cons, List.mem_flatMap] at he
      rcases he with rfl | ⟨m, hm, he⟩
      · exact ⟨key, [], rfl, .inl rfl⟩
      · rw [Doc.WFWith] at hwf
        obtain ⟨-, hd⟩ := Doc.wfWith_of_mem hwf.1 hm
        rw [enterTrail, if_pos ⟨rfl, hkey⟩] at he
        obtain ⟨k, p, hp, -⟩ := ih m hm hd (hitems m hm).1 (hitems m hm).2 _ m.1.key (hkeyed.1 m hm) he
        exact ⟨key, k :: p, by rw [hp]; simp, .inl rfl⟩

theorem path_plain (d : Doc) (hwf : d.WFWith gap) (h : d.Plain) (trail : List Bytes) (key : Bytes)
    (hkey : key ≠ []) (e : Lookup) (he : e ∈ docLookups trail key d) :
    ∃ k p, e.path = trail ++ k :: p ∧ (k = key ∨ k = []) := by
  obtain ⟨k, p, hp, hk⟩ := path_sealed d hwf h.keyed h.sealed trail key hkey e he
  exact ⟨k, p, hp, hk.imp id And.left⟩

/-- Whether a value is looked up at a prefix of a path. -/
def onPath (q : PathBase) (e : Lookup) : Bool := q.matchesParent e.path

theorem onPath_iff (q : PathBase) (e : Lookup) : onPath q e = true ↔ e.path <+: q :=
  PathBase.matchesParent_iff q e.path

/-- The whole document is looked up under no key, which no key of a path equals. -/
theorem docLookups_onPath (items : List (Slot × Doc)) (gap : Bytes) (q : PathBase) (hq : [] ∉ q) :
    (docLookups [] [] (.block true items gap)).filter (onPath q) = (itemLookups [] items).filter (onPath q) := by
  rw [docLookups, List.filter_cons_of_neg, enterTrail, if_neg (by simp)]
  rw [onPath_iff]
  intro hpre
  exact hq (hpre.subset (by simp [Lookup.path]))

/-- A binding takes of what lies on its path all but the scalars of earlier bindings. -/
theorem filter_takes (before : List ParseNode) (b : ParseNode) (hb : b.isCatchAll = false) (es : List Lookup) :
    es.filter (takes before b) =
      (es.filter (onPath b.path)).filter fun e => e.structural || !before.any (bound e.path) := by
  rw [List.filter_filter]
  apply List.filter_congr
  intro e _
  simp [takes, bound, onPath, hb, Bool.and_comm]

/-- A binding below a key is not reached from the values of other keys. -/
theorem onPath_other (d : Doc) (hwf : d.WFWith gap) (h : d.Plain) (trail : List Bytes) (key k : Bytes)
    (hkey : key ≠ []) (q : PathBase) (hq : [] ∉ k :: q) (hne : key ≠ k) :
    (docLookups trail key d).filter (onPath (trail ++ k :: q)) = [] := by
  rw [List.filter_eq_nil_iff]
  intro e he hm
  rw [onPath_iff] at hm
  obtain ⟨k', p, hp, hk'⟩ := path_plain d hwf h trail key hkey e he
  rw [hp, List.prefix_append_right_inj, List.cons_prefix_cons] at hm
  rcases hk' with rfl | rfl
  · exact hne hm.1
  · exact hq (by simp [← hm.1])

/-- The members of a plain object. -/
structure PlainObject (gap : Bytes → Prop) (items : List (Slot × Doc)) : Prop where
  wf : Doc.ItemsWFWith gap true items
  nodup : (items.map fun m => m.1.key).Nodup
  nonempty : ∀ m ∈ items, m.1.key ≠ []
  plain : ∀ m ∈ items, m.2.Plain

theorem PlainObject.of_doc {items : List (Slot × Doc)} {g : Bytes}
    (hwf : (Doc.block true items g).WFWith gap) (h : (Doc.block true items g).Plain) :
    PlainObject gap items := by
  rw [Doc.WFWith] at hwf
  exact ⟨hwf.1, h.1.1, h.1.2, fun m hm => Doc.all_of_mem h.2 hm⟩

/-- Below a key only the member of that key counts. -/
theorem PlainObject.filter_key {items : List (Slot × Doc)} (ho : PlainObject gap items) {s : Slot}
    {d : Doc} (h : (s, d) ∈ items) (trail : List Bytes) (q : PathBase) (hq : [] ∉ s.key :: q) :
    (itemLookups trail items).filter (onPath (trail ++ s.key :: q)) =
      (docLookups trail s.key d).filter (onPath (trail ++ s.key :: q)) := by
  rw [itemLookups_eq_flatMap _ _ (plain_pops _ ho.nonempty ho.plain), List.filter_flatMap]
  obtain ⟨before, after, rfl⟩ := List.append_of_mem h
  have hother (m : Slot × Doc) (hm : m ∈ before ++ after) :
      (docLookups trail m.1.key m.2).filter (onPath (trail ++ s.key :: q)) = [] := by
    have hmem : m ∈ before ++ (s, d) :: after := by
      rw [List.mem_append] at hm
      rw [List.mem_append, List.mem_cons]
      exact hm.imp id .inr
    have hne : m.1.key ≠ s.key := by
      intro heq
      have hnodup := ho.nodup
      rw [List.map_append, List.map_cons, List.nodup_middle, List.nodup_cons, ← List.map_append]
        at hnodup
      exact hnodup.1 (heq ▸ List.mem_map_of_mem (f := fun m => m.1.key) hm)
    exact onPath_other m.2 (Doc.wfWith_of_mem ho.wf hmem).2 (ho.plain m hmem) trail m.1.key s.key
      (ho.nonempty m hmem) q hq hne
  have hnil (l : List (Slot × Doc)) (hl : l ⊆ before ++ after) :
      (l.flatMap fun m => (docLookups trail m.1.key m.2).filter (onPath (trail ++ s.key :: q))) = [] :=
    List.flatMap_eq_nil_iff.mpr fun m hm => hother m (hl hm)
  rw [List.flatMap_append, List.flatMap_cons, hnil before (List.subset_append_left _ _),
    hnil after (List.subset_append_right _ _), List.nil_append, List.append_nil]

/-- Below an object member: the object, then what is on the rest of the path in it. -/
theorem PlainObject.filter_inside {items : List (Slot × Doc)} (ho : PlainObject gap items) {s : Slot}
    {ms : List (Slot × Doc)} {g : Bytes} (h : (s, .block true ms g) ∈ items) (trail : List Bytes)
    (path : PathBase) (hq : [] ∉ s.key :: path) :
    (itemLookups trail items).filter (onPath (trail ++ s.key :: path)) =
      ⟨trail, s.key, true, (Doc.block true ms g).text, false⟩ ::
        (itemLookups (trail ++ [s.key]) ms).filter (onPath (trail ++ [s.key] ++ path)) := by
  rw [ho.filter_key h trail path hq, docLookups, List.filter_cons_of_pos, enterTrail,
    if_pos ⟨rfl, ho.nonempty _ h⟩, List.append_assoc, List.singleton_append]
  rw [onPath_iff]
  exact ⟨path, by simp [Lookup.path]⟩

/-- What a binding of a scalar member meets in the members of an object: the objects around the
scalar, then the scalar. -/
theorem PlainObject.filter_member {items : List (Slot × Doc)} {q : PathBase} {d : Doc}
    (hm : Doc.MemberAt items q d) (ho : PlainObject gap items) (hq : [] ∉ q) (isString : Bool) (raw : Bytes)
    (hd : d = .scalar isString raw) (trail : List Bytes) :
    ∃ blocks e, (itemLookups trail items).filter (onPath (trail ++ q)) = blocks ++ [e] ∧
      (∀ e ∈ blocks, e.structural = true ∧ e.isString = false ∧ e.raw.head? = some (ch '{')) ∧
      e.path = trail ++ q ∧ e.structural = false ∧ e.isString = isString ∧ e.raw = raw := by
  induction hm generalizing trail with
  | @here items s d h =>
    subst hd
    refine ⟨[], ⟨trail, s.key, false, raw, isString⟩, ?_, by simp, rfl, rfl, rfl, rfl⟩
    rw [ho.filter_key h trail [] hq, docLookups, List.filter_cons_of_pos, List.filter_nil]
    · rfl
    · rw [onPath_iff]
      exact List.prefix_refl _
  | @inside items s ms g path d h _ ih =>
    have hsub : PlainObject gap ms := .of_doc (Doc.wfWith_of_mem ho.wf h).2 (ho.plain _ h)
    have hq' : [] ∉ path := fun hmem => hq (List.mem_cons_of_mem _ hmem)
    obtain ⟨blocks, e, hfilter, hblocks, hpath, hrest⟩ := ih hsub hq' hd (trail ++ [s.key])
    refine ⟨⟨trail, s.key, true, (Doc.block true ms g).text, false⟩ :: blocks, e, ?_, ?_, ?_, hrest⟩
    · rw [ho.filter_inside h trail path hq, hfilter]
      rfl
    · intro e' he'
      rcases List.mem_cons.mp he' with rfl | he'
      · exact ⟨rfl, rfl, rfl⟩
      · exact hblocks e' he'
    · rw [hpath, List.append_assoc, List.singleton_append]

end lookups

end Espbase.StackJson
