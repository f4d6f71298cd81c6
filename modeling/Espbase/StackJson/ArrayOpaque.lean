import Espbase.Lib.DocPlace
import Espbase.StackJson.CommentSpace

namespace Espbase.StackJson

open Espbase.Lib

section pops

theorem docPops_le_itemPops {items : List (Slot × Doc)} {m : Slot × Doc} (h : m ∈ items) :
    docPops m.1.key m.2 ≤ itemPops items := by
  induction items with
  | nil => cases h
  | cons m' items ih =>
    obtain ⟨s', d'⟩ := m'
    rw [itemPops]
    rcases List.mem_cons.mp h with rfl | h
    · exact Nat.le_add_right _ _
    · exact Nat.le_add_left_of_le (ih h)

/-- An array with an object in it loses a key. -/
theorem docPops_pos (d : Doc) (hwf : d.WF) (h : ¬ d.ObjectFree) : 1 ≤ docPops [] d := by
  induction d with
  | scalar isString raw => exact absurd rfl h
  | block curly items gap ih =>
    rw [Doc.WF] at hwf
    rw [docPops]
    cases curly with
    | true => simp
    | false =>
      obtain ⟨m, hm, hfree⟩ : ∃ m ∈ items, ¬ m.2.ObjectFree := by
        by_contra hall
        push Not at hall
        exact h ⟨rfl, Doc.allItems_of_forall hall⟩
      obtain ⟨hslot, hd⟩ := Doc.wf_of_mem hwf.1 hm
      have hpos := ih m hm hd hfree
      have hle := docPops_le_itemPops hm
      rw [hslot.key_nil] at hle
      omega

theorem itemPops_intact {items : List (Slot × Doc)} (hkeyed : ∀ m ∈ items, m.1.key ≠ [] ∧ m.2.Keyed)
    (h : ∀ m ∈ items, m.2.Sealed) : itemPops items = 0 :=
  itemPops_eq_zero items fun m hm =>
    docPops_sealed m.2 (hkeyed m hm).2 (h m hm) m.1.key fun _ => (hkeyed m hm).1

theorem docPops_fill (fs : List Frame) (key : Bytes) (d d' : Doc) (h : ∀ key, docPops key d = docPops key d') :
    docPops key (Frame.fill fs d) = docPops key (Frame.fill fs d') := by
  induction fs generalizing key with
  | nil => exact h key
  | cons f fs ih => simp only [Frame.fill_cons, docPops, itemPops_append, itemPops, ih]

/-- Below single members an array loses as many keys as anywhere. -/
theorem docPops_chain (keys : List Bytes) (key : Bytes) (items : List (Slot × Doc)) (gap : Bytes)
    (hkeys : [] ∉ key :: keys) :
    docPops key (Frame.chain keys (.block false items gap)) = itemPops items := by
  induction keys generalizing key with
  | nil => simp [docPops]
  | cons key' keys ih =>
    rw [List.mem_cons, not_or] at hkeys
    rw [Frame.chain_cons, docPops, itemPops, itemPops, Slot.compact_key, ih key' hkeys.2]
    simp [Ne.symm hkeys.1]

end pops

section around

/-- The trail in the object of a frame when its place is reached. -/
def trailAt (trail : List Bytes) (key : Bytes) (f : Frame) : List Bytes :=
  cutTrail (enterTrail trail key true) (itemPops f.before)

/-- The trail and the key under which the value at a place is looked up. -/
def arrival (trail : List Bytes) (key : Bytes) : List Frame → List Bytes × Bytes
  | [] => (trail, key)
  | f :: fs => arrival (trailAt trail key f) f.slot.key fs

/-- The lookups of the objects around a place. -/
def aroundLookups (trail : List Bytes) (key : Bytes) (d : Doc) : List Frame → List Lookup
  | [] => []
  | f :: fs =>
    ⟨trail, key, true, (Frame.fill (f :: fs) d).text, false⟩ ::
      aroundLookups (trailAt trail key f) f.slot.key d fs

theorem aroundLookups_structural (trail : List Bytes) (key : Bytes) (d : Doc) (fs : List Frame) :
    ∀ e ∈ aroundLookups trail key d fs, e.structural = true ∧ e.isString = false := by
  induction fs generalizing trail key with
  | nil => simp [aroundLookups]
  | cons f fs ih =>
    intro e he
    rcases List.mem_cons.mp he with rfl | he
    · exact ⟨rfl, rfl⟩
    · exact ih _ _ e he

/-- When nothing before the place loses keys, it is reached under its own path. -/
theorem arrival_path (fs : List Frame) (trail : List Bytes) (key : Bytes) (hkey : key ≠ [])
    (hkeys : ∀ f ∈ fs, f.slot.key ≠ []) (hpops : ∀ f ∈ fs, itemPops f.before = 0) :
    (arrival trail key fs).1 ++ [(arrival trail key fs).2] = trail ++ key :: fs.map fun f => f.slot.key := by
  induction fs generalizing trail key with
  | nil => rfl
  | cons f fs ih =>
    rw [arrival, ih _ _ (hkeys f (by simp)) (fun g hg => hkeys g (by simp [hg])) fun g hg => hpops g (by simp [hg]),
      trailAt, hpops f (by simp), cutTrail_zero, enterTrail, if_pos ⟨rfl, hkey⟩]
    simp

/-- Two lookups that are one, or of an object around a place with one or the other value there. -/
structure Beside (around : List Lookup) (e e' : Lookup) : Prop where
  mirrors : Mirrors e e'
  same : e ∉ around → e = e'

theorem mem_itemLookups {items : List (Slot × Doc)} {trail : List Bytes} {e : Lookup}
    (he : e ∈ itemLookups trail items) :
    ∃ m ∈ items, ∃ trail', trail' <+: trail ∧ e ∈ docLookups trail' m.1.key m.2 := by
  induction items generalizing trail with
  | nil => cases he
  | cons m items ih =>
    obtain ⟨s, d⟩ := m
    rw [itemLookups, List.mem_append] at he
    rcases he with he | he
    · exact ⟨(s, d), .head _, trail, List.prefix_refl _, he⟩
    · obtain ⟨m, hm, trail', htrail, he⟩ := ih he
      exact ⟨m, .tail _ hm, trail', htrail.trans <| cutTrail_prefix _ _, he⟩

theorem docLookups_opening (d : Doc) (trail : List Bytes) (key : Bytes) (e : Lookup)
    (he : e ∈ docLookups trail key d) (hs : e.structural = true) :
    ∃ curly, e.raw.head? = some (opening curly) := by
  induction d generalizing trail key with
  | scalar isString raw =>
    rw [docLookups, List.mem_singleton] at he
    rw [he] at hs
    cases hs
  | block curly items gap ih =>
    rw [docLookups, List.mem_cons] at he
    rcases he with rfl | he
    · exact ⟨curly, by rw [Doc.text]; rfl⟩
    · obtain ⟨m, hm, trail', -, he⟩ := mem_itemLookups he
      exact ih m hm trail' m.1.key he

/-- The path of a lookup is made of keys that can be written in a text. -/
theorem docLookups_bodies (d : Doc) (hwf : d.WF) (trail : List Bytes) (key : Bytes)
    (hkeys : ∀ k ∈ trail ++ [key], IsStringBody k) (e : Lookup) (he : e ∈ docLookups trail key d) :
    ∀ k ∈ e.path, IsStringBody k := by
  induction d generalizing trail key with
  | scalar isString raw =>
    rw [docLookups, List.mem_singleton] at he
    rw [he]
    exact hkeys
  | block curly items gap ih =>
    rw [docLookups, List.mem_cons] at he
    rcases he with rfl | he
    · exact hkeys
    · obtain ⟨m, hm, trail', htrail, he⟩ := mem_itemLookups he
      rw [Doc.WF] at hwf
      obtain ⟨⟨-, -, -, hlabel⟩, hd⟩ := Doc.wf_of_mem hwf.1 hm
      refine ih m hm hd trail' m.1.key ?_ he
      intro k hk
      rcases List.mem_append.mp hk with hk | hk
      · have hk := htrail.subset hk
        unfold enterTrail at hk
        split_ifs at hk
        · exact hkeys k hk
        · exact hkeys k (List.mem_append_left _ hk)
      · rw [List.mem_singleton.mp hk, Slot.key]
        cases hl : m.1.label with
        | none => exact trivial
        | some l => exact (hlabel l hl).1

theorem Beside.self (around : List Lookup) {e : Lookup}
    (h : e.structural = true → ∃ curly, e.raw.head? = some (opening curly)) : Beside around e e :=
  ⟨⟨rfl, rfl, rfl, rfl, fun _ => rfl, fun hs => (h hs).imp fun _ h => ⟨h, h⟩⟩, fun _ => rfl⟩

theorem beside_filter {around es es' : List Lookup} (p : Lookup → Bool)
    (hp : ∀ e e', e.path = e'.path → e.structural = e'.structural → p e = p e')
    (h : List.Forall₂ (Beside around) es es') : List.Forall₂ (Beside around) (es.filter p) (es'.filter p) :=
  List.rel_filter (fun e e' he => by
    show p e = true ↔ p e' = true
    rw [hp e e' he.mirrors.path he.mirrors.structural]) h

theorem beside_eq {around es es' : List Lookup} (h : List.Forall₂ (Beside around) es es')
    (hno : ∀ e ∈ es, e ∉ around) : es = es' := by
  induction h with
  | nil => rfl
  | @cons e e' _ _ he _ ih => rw [he.same (hno e (by simp)), ih fun e he => hno e (by simp [he])]

variable {q : PathBase}

/-- Around a place, another value there changes only the text of the object when it loses the same keys. -/
theorem beside_around (f : Frame) (trail : List Bytes) (key : Bytes) (d d' : Doc) (around : List Lookup)
    (hhead : ⟨trail, key, true, (f.around d).text, false⟩ ∈ around)
    (hpops : cutTrail (trailAt trail key f) (docPops f.slot.key d) =
      cutTrail (trailAt trail key f) (docPops f.slot.key d'))
    (hinner : List.Forall₂ (Beside around)
      ((docLookups (trailAt trail key f) f.slot.key d).filter (onPath q))
      ((docLookups (trailAt trail key f) f.slot.key d').filter (onPath q))) :
    List.Forall₂ (Beside around) ((docLookups trail key (f.around d)).filter (onPath q))
      ((docLookups trail key (f.around d')).filter (onPath q)) := by
  have hself (items : List (Slot × Doc)) (trail : List Bytes) :
      List.Forall₂ (Beside around) ((itemLookups trail items).filter (onPath q))
        ((itemLookups trail items).filter (onPath q)) := by
    refine List.forall₂_same.mpr fun e he => Beside.self around ?_
    intro hs
    obtain ⟨m, -, trail', -, he⟩ := mem_itemLookups (List.mem_filter.mp he).1
    exact docLookups_opening m.2 trail' m.1.key e he hs
  have hopen (d : Doc) : (f.around d).text.head? = some (opening true) := by
    rw [Frame.around, Doc.text]
    rfl
  have hroot : Beside around ⟨trail, key, true, (f.around d).text, false⟩
      ⟨trail, key, true, (f.around d').text, false⟩ :=
    ⟨⟨rfl, rfl, rfl, rfl, nofun, fun _ => ⟨true, hopen d, hopen d'⟩⟩, fun hno => absurd hhead hno⟩
  have hlookups (d : Doc) : docLookups trail key (f.around d) = [⟨trail, key, true, (f.around d).text, false⟩] ++
      (itemLookups (enterTrail trail key true) f.before ++
        (docLookups (trailAt trail key f) f.slot.key d ++
          itemLookups (cutTrail (trailAt trail key f) (docPops f.slot.key d)) f.after)) := by
    rw [Frame.around, docLookups, itemLookups_append, itemLookups]
    rfl
  rw [hlookups d, hlookups d', ← hpops]
  simp only [List.filter_append]
  refine List.rel_append (beside_filter _ (fun e e' hpath _ => by rw [onPath, onPath, hpath]) (.cons hroot .nil)) ?_
  exact List.rel_append (hself _ _) (List.rel_append hinner (hself _ _))

/-- The same for a value inside of objects. -/
theorem beside_fill (fs : List Frame) (trail : List Bytes) (key : Bytes) (d d' : Doc) (around : List Lookup)
    (haround : aroundLookups trail key d fs ⊆ around) (hpops : ∀ key, docPops key d = docPops key d')
    (hinner : List.Forall₂ (Beside around)
      ((docLookups (arrival trail key fs).1 (arrival trail key fs).2 d).filter (onPath q))
      ((docLookups (arrival trail key fs).1 (arrival trail key fs).2 d').filter (onPath q))) :
    List.Forall₂ (Beside around) ((docLookups trail key (Frame.fill fs d)).filter (onPath q))
      ((docLookups trail key (Frame.fill fs d')).filter (onPath q)) := by
  induction fs generalizing trail key with
  | nil => exact hinner
  | cons f fs ih =>
    obtain ⟨hhead, hrest⟩ := List.cons_subset.mp haround
    have hsub := ih (trailAt trail key f) f.slot.key hrest hinner
    exact beside_around f trail key (Frame.fill fs d) (Frame.fill fs d') around hhead
      (by rw [docPops_fill fs f.slot.key d d' hpops]) hsub

end around

section place
variable (p : Place) (items : List (Slot × Doc)) (gap : Bytes) (q : PathBase)

/-- What keeps the values of an array apart from a binding: no object stands in it, or the binding's
path cannot be written, or the array is a member of the root and no value in it is looked up on the path. -/
def Apart (path : List Bytes) (items : List (Slot × Doc)) (gap : Bytes) (q : PathBase) : Prop :=
  (Doc.block false items gap).ObjectFree ∨ (∀ key ∈ q.head?, ¬ IsStringBody key) ∨
    path.length = 1 ∧ ∀ e ∈ itemLookups [] items, ¬ e.path <+: q

/-- The lookups of the objects around a place in a text. -/
def objectsAround (d : Doc) : List Lookup := aroundLookups [] [] d p.frames

theorem filter_unwritten (d : Doc) (hwf : d.WF) (hhead : ∀ key ∈ q.head?, ¬ IsStringBody key) :
    (docLookups [] [] d).filter (onPath q) = [] := by
  rw [List.filter_eq_nil_iff]
  intro e he hpre
  rw [onPath_iff] at hpre
  have hbodies := docLookups_bodies d hwf [] [] (by simp [IsStringBody]) e he
  obtain ⟨k, path, hpath⟩ := List.exists_cons_of_ne_nil (show e.path ≠ [] by simp [Lookup.path])
  obtain ⟨rest, hrest⟩ := hpre
  rw [hpath] at hbodies hrest
  exact hhead k (by rw [← hrest]; rfl) (hbodies k (by simp))

/-- An array without objects is looked up at its own path and under no key only. -/
theorem filter_arrival (hwf : (Doc.block false items gap).WF) (hfree : (Doc.block false items gap).ObjectFree)
    (hq : [] ∉ q) (hintact : p.Intact) (d : Doc) (hkeyed : (p.root d).Keyed) (hne : p.path ≠ [])
    (hpath : ¬ p.path <+: q) :
    (docLookups (arrival [] [] p.frames).1 (arrival [] [] p.frames).2 (.block false items gap)).filter (onPath q) =
      [] := by
  have hframes := Frame.fill_keyed hkeyed
  have harrival : (arrival [] [] p.frames).1 ++ [(arrival [] [] p.frames).2] = p.path := by
    unfold Place.path at *
    unfold Place.Intact at hintact
    cases hf : p.frames with
    | nil => rw [hf] at hne; exact absurd rfl hne
    | cons f fs =>
      rw [hf] at hframes hintact
      rw [arrival, arrival_path fs _ _ (hframes f (by simp)).1 (fun g hg => (hframes g (by simp [hg])).1)
        fun g hg => itemPops_intact (hframes g (by simp [hg])).2 (hintact g hg)]
      simp [trailAt, enterTrail, cutTrail]
  rw [List.filter_eq_nil_iff]
  intro e he hpre
  rw [onPath_iff] at hpre
  rcases path_objectFree _ (Doc.WF.with _ hwf) hfree _ _ e he with h | h
  · exact hpath (harrival ▸ h ▸ hpre)
  · exact hq (hpre.subset (by simp [h]))

/-- The lookups on the path of a binding with the array and without its elements. -/
theorem place_beside (hwf : (p.root (.block false items gap)).WF) (hkeyed : (p.root (.block false items gap)).Keyed)
    (harray : (Doc.block false items gap).WF) (hintact : p.Intact) (hq : [] ∉ q) (hne : p.path ≠ [])
    (hpath : ¬ p.path <+: q) (happart : Apart p.path items gap q) :
    List.Forall₂ (Beside (objectsAround p (.block false items gap)))
      ((docLookups [] [] (p.root (.block false items gap))).filter (onPath q))
      ((docLookups [] [] (p.root .emptyArray)).filter (onPath q)) := by
  have hempty : Doc.emptyArray.ObjectFree := ⟨rfl, trivial⟩
  rcases happart with hfree | hhead | ⟨hlen, hnone⟩
  · refine beside_fill p.frames [] [] _ _ _ (List.Subset.refl _) ?_ ?_
    · intro key
      rw [docPops_objectFree _ hfree, docPops_objectFree _ hempty]
    · have hnone := filter_arrival p [] [] q Doc.emptyArray_wf hempty hq hintact _ hkeyed hne hpath
      rw [filter_arrival p items gap q harray hfree hq hintact _ hkeyed hne hpath, Doc.emptyArray, hnone]
      exact .nil
  · have hwf' : (p.root .emptyArray).WF := Frame.fill_wf p.frames _ _ hwf Doc.emptyArray_wf
    rw [filter_unwritten q _ hwf hhead, filter_unwritten q _ hwf' hhead]
    exact .nil
  · obtain ⟨f, hf⟩ : ∃ f, p.frames = [f] := by
      rw [Place.path, List.length_map] at hlen
      exact List.length_eq_one_iff.mp hlen
    have hkey : ¬ [f.slot.key] <+: q := by simpa [Place.path, hf] using hpath
    have htrail : trailAt [] [] f = [] := by simp [trailAt, enterTrail, cutTrail]
    have hnil (items : List (Slot × Doc)) (gap : Bytes) (h : ∀ e ∈ itemLookups [] items, ¬ e.path <+: q) :
        (docLookups [] f.slot.key (.block false items gap)).filter (onPath q) = [] := by
      rw [List.filter_eq_nil_iff]
      intro e he
      rw [onPath_iff]
      rw [docLookups, List.mem_cons] at he
      rcases he with rfl | he
      · exact hkey
      · exact h e he
    simp only [Place.root, objectsAround, hf]
    refine beside_around f [] [] _ _ _ (List.mem_cons_self ..) (by rw [htrail]; simp [cutTrail]) ?_
    show List.Forall₂ _ ((docLookups (trailAt [] [] f) f.slot.key (.block false items gap)).filter (onPath q))
      ((docLookups (trailAt [] [] f) f.slot.key (.block false [] [])).filter (onPath q))
    rw [htrail, hnil items gap hnone, hnil [] [] (by simp [itemLookups])]
    exact .nil

end place

section spared

/-- The values that a binding takes leave no trace of the objects around a place: blocks mean nothing to a
`bool` or an integer, and what is overwritten ends with the last value. -/
def Spares (around es : List Lookup) : NodeKind → Prop
  | .bind (.bool _) => True
  | .bind (.int _) => True
  | .bind (.view _) => ∀ e ∈ es.getLast?, e ∉ around
  | .bind (.string _) => ∀ e ∈ es.getLast?, e ∉ around
  | .dynamic _ => ∀ e ∈ es.getLast?, e ∉ around
  | _ => ∀ e ∈ es, e ∉ around

variable [FloatChars]

theorem foldl_beside_overwrites {around es es' : List Lookup} (h : List.Forall₂ (Beside around) es es')
    (n : ParseNode) (hn : n.kind.Overwritten) (hlast : ∀ e ∈ es.getLast?, e ∉ around) :
    es.foldl (fun n e => n.assigned e) n = es'.foldl (fun n e => n.assigned e) n := by
  rw [foldl_overwrites es n hn, foldl_overwrites es' n hn]
  rcases getLast?_forall₂ h with ⟨rfl, rfl⟩ | ⟨e, e', he, he', hee⟩
  · rfl
  · rw [he, he', hee.same (hlast e he)]

/-- A binding that is spared ends the same with the one and the other value at the place. -/
theorem foldl_spared {around es es' : List Lookup} (h : List.Forall₂ (Beside around) es es') (n : ParseNode)
    (hspares : Spares around es n.kind) :
    es.foldl (fun n e => n.assigned e) n = es'.foldl (fun n e => n.assigned e) n := by
  have hmirrors : List.Forall₂ Mirrors es es' := h.imp fun _ _ he => he.mirrors
  cases hn : n.kind with
  | bind target =>
    rw [hn] at hspares
    cases target with
    | bool value => exact foldl_mirrors hmirrors n _ hn trivial nofun
    | int value => exact foldl_mirrors hmirrors n _ hn trivial nofun
    | view value => exact foldl_beside_overwrites h n (by rw [hn]; trivial) hspares
    | string value => exact foldl_beside_overwrites h n (by rw [hn]; trivial) hspares
    | float bits => rw [beside_eq h hspares]
    | double bits => rw [beside_eq h hspares]
    | span value => rw [beside_eq h hspares]
  | dynamic data =>
    rw [hn] at hspares
    exact foldl_beside_overwrites h n (by rw [hn]; trivial) hspares
  | unknown data calls =>
    rw [hn] at hspares
    rw [beside_eq h hspares]

/-- What a binding takes of a text spares it. -/
def SparedAt (p : Place) (d : Doc) (before : List ParseNode) (b : ParseNode) : Prop :=
  Spares (objectsAround p d) ((docLookups [] [] (p.root d)).filter (takes before b)) b.kind

/-- Wherever an array stands under a path, its elements make no difference to the bindings of another
path: provided that nothing before it loses keys, and that the bindings are spared. -/
def Opaque (path : List Bytes) (array : Doc) (q : PathBase) : Prop :=
  ∀ p : Place, p.path = path → (p.root array).WF → (p.root array).Keyed → p.Intact →
    ∀ bs : List ParseNode, (∀ n ∈ bs, n.isCatchAll = false → [] ∉ n.path) →
      ∀ k b, bs[k]? = some b → b.isCatchAll = false → b.path = q → SparedAt p array (bs.take k) b →
        ∃ nodes nodes' b', parse (p.text array) bs = some nodes ∧
          parse (p.text .emptyArray) bs = some nodes' ∧ nodes[k]? = some b' ∧ nodes'[k]? = some b'

/-- What a parse of the text leaves in a binding. -/
theorem parse_place (p : Place) (d : Doc) (hwf : (p.root d).WF) (bs : List ParseNode) (k : Nat) (b : ParseNode)
    (hk : bs[k]? = some b) (hb : b.isCatchAll = false) :
    ∃ nodes, parse (p.text d) bs = some nodes ∧
      nodes[k]? = some (outcome (bs.take k) b.reset (docLookups [] [] (p.root d))) :=
  parse_jsonText (p.json d hwf) bs k b hk hb

theorem opaque_of_apart (path : List Bytes) (items : List (Slot × Doc)) (gap : Bytes) (q : PathBase)
    (harray : (Doc.block false items gap).WF) (hne : path ≠ []) (hq : [] ∉ q) (hbelow : ¬ path <+: q)
    (happart : Apart path items gap q) : Opaque path (.block false items gap) q := by
  rintro p rfl hwf hkeyed hintact bs - k b hk hb rfl hspared
  have hwf' : (p.root .emptyArray).WF := Frame.fill_wf p.frames _ _ hwf Doc.emptyArray_wf
  obtain ⟨nodes, hp, hn⟩ := parse_place p _ hwf bs k b hk hb
  obtain ⟨nodes', hp', hn'⟩ := parse_place p _ hwf' bs k b hk hb
  refine ⟨nodes, nodes', _, hp, hp', hn, ?_⟩
  have hbeside := place_beside p items gap b.path hwf hkeyed harray hintact hq hne hbelow happart
  have htaken := beside_filter (fun e => e.structural || !(bs.take k).any (bound e.path))
    (fun e e' hpath hs => by rw [hpath, hs]) hbeside
  rw [← filter_takes (bs.take k) b hb, ← filter_takes (bs.take k) b hb] at htaken
  rw [hn']
  exact congrArg some (foldl_spared htaken b.reset hspared).symm

end spared

section chain

/-- The lookups of a value below single members end with those of the value. -/
theorem docLookups_chain (keys : List Bytes) (trail : List Bytes) (key : Bytes) (d : Doc) (hkeys : [] ∉ key :: keys) :
    ∃ blocks, (∀ e ∈ blocks, e.isString = false) ∧ docLookups trail key (Frame.chain keys d) =
      blocks ++ docLookups (trail ++ (key :: keys).dropLast) ((key :: keys).getLast (List.cons_ne_nil _ _)) d := by
  induction keys generalizing trail key with
  | nil => exact ⟨[], by simp, by simp⟩
  | cons key' keys ih =>
    rw [List.mem_cons, not_or] at hkeys
    obtain ⟨blocks, hblocks, hlookups⟩ := ih (trail ++ [key]) key' hkeys.2
    refine ⟨⟨trail, key, true, (Frame.chain (key' :: keys) d).text, false⟩ :: blocks, ?_, ?_⟩
    · intro e he
      rcases List.mem_cons.mp he with rfl | he
      · rfl
      · exact hblocks e he
    · rw [Frame.chain_cons, docLookups, itemLookups, itemLookups, enterTrail, if_pos ⟨rfl, Ne.symm hkeys.1⟩,
        Slot.compact_key, hlookups]
      simp

theorem not_prefix_takeWhile {α : Type} (p : α → Bool) (a : α) (l : List α) (ha : p a = true) :
    ¬ a :: l.takeWhile p <+: l := by
  rintro ⟨rest, hrest⟩
  have hall : ∀ b ∈ a :: l.takeWhile p, p b = true := by
    intro b hb
    rcases List.mem_cons.mp hb with rfl | hb
    · exact ha
    · exact List.all_eq_true.mp List.all_takeWhile b hb
  have htake : l.takeWhile p = a :: l.takeWhile p ++ rest.takeWhile p := by
    conv_lhs => rw [← hrest]
    exact List.takeWhile_append_of_pos hall
  have := congrArg List.length htake
  simp only [List.cons_append, List.length_cons, List.length_append] at this
  omega

/-- A place below the root, with a string in the object at the first key behind it. -/
def laterPlace (key key' : Bytes) (keys : List Bytes) (first : Bytes) (more : List Bytes) : Place where
  lead := []
  frames := Frame.single key ::
    ⟨[], .compact key' true, [(.compact first false, Frame.chain more (.scalar true []))], []⟩ ::
      keys.map Frame.single
  trail := []
  lead_gap := .nil
  trail_gap := .nil

section laterPlace
variable (key key' : Bytes) (keys : List Bytes) (first : Bytes) (more : List Bytes)

theorem laterPlace_root (d : Doc) : (laterPlace key key' keys first more).root d =
    .block true [(.compact key false, .block true [(.compact key' true, Frame.chain keys d),
      (.compact first false, Frame.chain more (.scalar true []))] [])] [] := rfl

theorem laterPlace_path : (laterPlace key key' keys first more).path = key :: key' :: keys := by
  have hkeys : (keys.map Frame.single).map (fun f => f.slot.key) = keys := by
    rw [List.map_map]
    exact List.map_id' keys
  show key :: key' :: (keys.map Frame.single).map (fun f => f.slot.key) = _
  rw [hkeys]

theorem laterPlace_intact : (laterPlace key key' keys first more).Intact := by
  intro f hf
  have hbefore : f.before = [] := by
    rcases List.mem_cons.mp hf with rfl | hf
    · rfl
    · obtain ⟨k, -, rfl⟩ := List.mem_map.mp hf
      rfl
  simp [hbefore]

theorem laterPlace_wf (d : Doc) (hkeys : ∀ k ∈ key :: key' :: keys, IsStringBody k)
    (hmore : ∀ k ∈ first :: more, IsStringBody k) (hd : d.WF) :
    ((laterPlace key key' keys first more).root d).WF := by
  have hstring : (Doc.scalar true []).WF := trivial
  rw [laterPlace_root]
  refine ⟨⟨Slot.compact_wf _ _ (hkeys key (by simp)), ⟨⟨Slot.compact_wf _ _ (hkeys key' (by simp)),
    Frame.chain_wf keys d (fun k hk => hkeys k (by simp [hk])) hd, fun _ => rfl,
    Slot.compact_wf _ _ (hmore first (by simp)),
    Frame.chain_wf more _ (fun k hk => hmore k (by simp [hk])) hstring, fun h => absurd rfl h, trivial⟩, .nil⟩,
    fun h => absurd rfl h, trivial⟩, .nil⟩

theorem laterPlace_keyed (d : Doc) (hkeys : [] ∉ key :: key' :: keys) (hmore : [] ∉ first :: more)
    (hd : d.Keyed) : ((laterPlace key key' keys first more).root d).Keyed := by
  simp only [List.mem_cons, not_or] at hkeys hmore
  obtain ⟨hkey, hkey', hkeys⟩ := hkeys
  rw [laterPlace_root]
  refine ⟨by simpa using Ne.symm hkey, ⟨?_, Frame.chain_keyed keys d hkeys hd,
    Frame.chain_keyed more _ hmore.2 trivial, trivial⟩, trivial⟩
  simpa using ⟨Ne.symm hkey', Ne.symm hmore.1⟩

/-- The string behind an array is looked up last; it misses the first key when the array loses keys. -/
theorem laterPlace_lookups (items : List (Slot × Doc)) (gap : Bytes) (hkeys : [] ∉ key :: key' :: keys)
    (hmore : [] ∉ first :: more) :
    ∃ init e, docLookups [] [] ((laterPlace key key' keys first more).root (.block false items gap)) =
        init ++ [e] ∧ e.path = cutTrail [key] (itemPops items) ++ first :: more ∧ e.isString = true ∧
      (items = [] → ∀ e ∈ init, e.isString = false) := by
  rw [List.mem_cons, not_or] at hkeys
  obtain ⟨blocks, hblocks, hlookups⟩ := docLookups_chain keys [key] key' (.block false items gap) hkeys.2
  obtain ⟨blocks', hblocks', hlookups'⟩ :=
    docLookups_chain more (cutTrail [key] (itemPops items)) first (.scalar true []) hmore
  have hsplit (a b : Lookup) (l l' : List Lookup) (e : Lookup) :
      a :: b :: (l ++ (l' ++ [e])) = (a :: b :: (l ++ l')) ++ [e] := by simp
  rw [laterPlace_root]
  simp only [docLookups, itemLookups, Slot.compact_key, enterTrail, ne_eq, not_true_eq_false, and_false,
    if_false, Ne.symm hkeys.1, not_false_eq_true, and_self, if_true, List.nil_append, List.append_nil,
    docPops_chain keys key' items gap hkeys.2, hlookups, hlookups']
  rw [hsplit]
  refine ⟨_, _, rfl, by simp [Lookup.path, List.dropLast_append_getLast], rfl, ?_⟩
  rintro rfl e he
  simp only [itemLookups, List.mem_cons, List.mem_append, List.not_mem_nil, or_false] at he
  rcases he with rfl | rfl | (he | rfl) | he
  · rfl
  · rfl
  · exact hblocks e he
  · rfl
  · exact hblocks' e he

end laterPlace

end chain

section exact
variable [FloatChars]

/-- A dynamic node, which shows the last value that it takes. -/
def watch (q : PathBase) : ParseNode := ⟨q, false, false, .dynamic ⟨[], false, [], false⟩⟩

theorem watch_assigned (q : PathBase) (e : Lookup) :
    ((watch q).assigned e).kind = .dynamic ⟨e.raw, e.isString, e.raw, false⟩ := by
  rw [assigned_dynamic e (watch q) _ rfl]

/-- What an opaque array leaves in a dynamic node that is the only binding. -/
theorem Opaque.watched {path : List Bytes} {array : Doc} {q : PathBase} (h : Opaque path array q) (p : Place)
    (hp : p.path = path) (hwf : (p.root array).WF) (hkeyed : (p.root array).Keyed) (hintact : p.Intact)
    (hq : [] ∉ q)
    (hlast : ∀ e ∈ ((docLookups [] [] (p.root array)).filter (onPath q)).getLast?, e ∉ objectsAround p array) :
    ((docLookups [] [] (p.root array)).filter (onPath q)).foldl (fun n e => n.assigned e) (watch q) =
      ((docLookups [] [] (p.root .emptyArray)).filter (onPath q)).foldl (fun n e => n.assigned e) (watch q) := by
  have hwf' : (p.root .emptyArray).WF := Frame.fill_wf p.frames _ _ hwf Doc.emptyArray_wf
  have htaken (es : List Lookup) : es.filter (takes [] (watch q)) = es.filter (onPath q) := by
    rw [filter_takes [] (watch q) rfl]
    exact List.filter_eq_self.mpr (by simp)
  have hbs : ∀ n ∈ [watch q], n.isCatchAll = false → [] ∉ n.path := by
    intro n hn _
    rw [List.mem_singleton.mp hn]
    exact hq
  have hspared : SparedAt p array ([watch q].take 0) (watch q) := by
    show ∀ e ∈ List.getLast? _, _
    rw [List.take_zero, htaken]
    exact hlast
  obtain ⟨nodes, nodes', b', hp, hp', hn, hn'⟩ :=
    h p hp hwf hkeyed hintact [watch q] hbs 0 (watch q) rfl rfl rfl hspared
  obtain ⟨nodes₁, hp₁, hn₁⟩ := parse_place p array hwf [watch q] 0 (watch q) rfl rfl
  obtain ⟨nodes₂, hp₂, hn₂⟩ := parse_place p .emptyArray hwf' [watch q] 0 (watch q) rfl rfl
  obtain rfl : nodes = nodes₁ := Option.some.inj (hp.symm.trans hp₁)
  obtain rfl : nodes' = nodes₂ := Option.some.inj (hp'.symm.trans hp₂)
  rw [hn, Option.some.injEq, outcome] at hn₁
  rw [hn', Option.some.injEq, outcome] at hn₂
  rw [← htaken, ← htaken]
  exact hn₁.symm.trans hn₂

/-- In the root, no value of the array is looked up on the path. -/
theorem Opaque.root {key : Bytes} {items : List (Slot × Doc)} {gap : Bytes} {q : PathBase}
    (h : Opaque [key] (.block false items gap) q) (hkey : key ≠ []) (hbody : IsStringBody key)
    (harray : (Doc.block false items gap).WF) (hkeyed : (Doc.block false items gap).Keyed) (hq : [] ∉ q)
    (hbelow : ¬ [key] <+: q) : ∀ e ∈ itemLookups [] items, ¬ e.path <+: q := by
  let p : Place := ⟨[], [Frame.single key], [], .nil, .nil⟩
  have hroot (d : Doc) : docLookups [] [] (p.root d) =
      ⟨[], [], true, (Frame.chain [key] d).text, false⟩ :: docLookups [] key d := by
    show docLookups [] [] (Frame.chain [key] d) = _
    rw [Frame.chain_cons, docLookups, itemLookups, itemLookups, List.append_nil, Slot.compact_key]
    rfl
  have hoff (raw : Bytes) : ¬ onPath q ⟨[], [], true, raw, false⟩ = true := fun hon =>
    hq (((onPath_iff _ _).mp hon).subset (by simp [Lookup.path]))
  have hwatched := h.watched p rfl (Frame.chain_wf [key] _ (by simpa using hbody) harray)
    (Frame.chain_keyed [key] _ (by simpa using Ne.symm hkey) hkeyed) (fun f hf => by cases hf) hq ?_
  · intro e he hpre
    have hmem : e ∈ (docLookups [] [] (p.root (.block false items gap))).filter (onPath q) := by
      rw [List.mem_filter, hroot, docLookups]
      exact ⟨.tail _ (.tail _ he), (onPath_iff q e).mpr hpre⟩
    have hnone : (docLookups [] [] (p.root .emptyArray)).filter (onPath q) = [] := by
      rw [hroot, List.filter_eq_nil_iff]
      intro e he hon
      simp only [Doc.emptyArray, docLookups, itemLookups, List.mem_cons, List.not_mem_nil, or_false] at he
      rcases he with rfl | rfl
      · exact hoff _ hon
      · exact hbelow ((onPath_iff _ _).mp hon)
    rw [hnone, List.foldl_nil] at hwatched
    have hset := congrArg ParseNode.isSet hwatched
    rw [foldl_assigned_isSet _ _ (.inl (List.ne_nil_of_mem hmem))] at hset
    cases hset
  · intro e he hmem
    have hon := (List.mem_filter.mp (List.mem_of_getLast? he)).2
    rw [List.mem_singleton.mp hmem] at hon
    exact hoff _ hon

/-- Below the root, an object in the array would cut the path of a later member. -/
theorem Opaque.objectFree {key key' : Bytes} {keys : List Bytes} {items : List (Slot × Doc)} {gap : Bytes}
    {q : PathBase} (h : Opaque (key :: key' :: keys) (.block false items gap) q)
    (hkeys : ∀ k ∈ key :: key' :: keys, k ≠ [] ∧ IsStringBody k) (harray : (Doc.block false items gap).WF)
    (hkeyed : (Doc.block false items gap).Keyed) (hq : [] ∉ q) (first : Bytes) (hfirst : first ∈ q.head?)
    (hbody : IsStringBody first) : (Doc.block false items gap).ObjectFree := by
  by_contra hfree
  have hnonempty : [] ∉ key :: key' :: keys := fun hmem => (hkeys [] hmem).1 rfl
  -- as much of the path as can be written is the path of a string behind the array
  obtain ⟨more, hmore⟩ : ∃ more, q.takeWhile (fun k => decide (IsStringBody k)) = first :: more := by
    cases q with
    | nil => cases hfirst
    | cons k q =>
      obtain rfl := Option.some.inj hfirst
      exact ⟨_, List.takeWhile_cons_of_pos (by simpa using hbody)⟩
  have hfound : first :: more <+: q := hmore ▸ List.takeWhile_prefix _
  have hmoreKeys : [] ∉ first :: more := fun hmem => hq (hfound.subset hmem)
  have hmoreBodies : ∀ k ∈ first :: more, IsStringBody k := by
    intro k hk
    rw [← hmore] at hk
    simpa using List.all_eq_true.mp List.all_takeWhile k hk
  have hpos := docPops_pos _ harray hfree
  rw [docPops, if_neg (by simp), Nat.add_zero] at hpos
  obtain ⟨init, e, hlookups, hpath, hstr, -⟩ := laterPlace_lookups key key' keys first more items gap hnonempty hmoreKeys
  obtain ⟨init', e', hlookups', hpath', -, hinit'⟩ := laterPlace_lookups key key' keys first more [] [] hnonempty hmoreKeys
  have hcut : cutTrail [key] (itemPops items) = [] := by
    rw [cutTrail, List.length_singleton, Nat.sub_eq_zero_of_le hpos, List.take_zero]
  have hon : onPath q e = true := by
    rw [onPath_iff, hpath, hcut]
    exact hfound
  have hoff : onPath q e' = false := by
    rw [Bool.eq_false_iff]
    intro hon
    rw [onPath_iff, hpath', ← hmore] at hon
    exact not_prefix_takeWhile _ key q (by simpa using (hkeys key (by simp)).2) hon
  have hfilter : (docLookups [] [] ((laterPlace key key' keys first more).root (.block false items gap))).filter
      (onPath q) = init.filter (onPath q) ++ [e] := by
    rw [hlookups, List.filter_append, List.filter_cons_of_pos hon, List.filter_nil]
  have hwatched := h.watched (laterPlace key key' keys first more) (laterPlace_path ..)
    (laterPlace_wf key key' keys first more _ (fun k hk => (hkeys k hk).2) hmoreBodies harray)
    (laterPlace_keyed key key' keys first more _ hnonempty hmoreKeys hkeyed)
    (laterPlace_intact key key' keys first more) hq ?_
  · have hfilter' : (docLookups [] [] ((laterPlace key key' keys first more).root .emptyArray)).filter (onPath q) =
        init'.filter (onPath q) := by
      rw [Doc.emptyArray, hlookups', List.filter_append, List.filter_cons_of_neg (by simp [hoff]), List.filter_nil,
        List.append_nil]
    rw [hfilter, hfilter', foldl_overwrites _ (watch q) trivial, foldl_overwrites _ (watch q) trivial,
      List.getLast?_concat] at hwatched
    have hkind := congrArg ParseNode.kind hwatched
    cases hlast : (init'.filter (onPath q)).getLast? with
    | none =>
      rw [hlast] at hkind
      simp only [watch_assigned] at hkind
      simp [watch, hstr] at hkind
    | some e'' =>
      have hnostr := hinit' rfl e'' (List.mem_filter.mp (List.mem_of_getLast? hlast)).1
      rw [hlast] at hkind
      simp [watch_assigned, hstr, hnostr] at hkind
  · rw [hfilter, List.getLast?_concat]
    intro e' he' hmem
    obtain rfl := Option.some.inj he'
    rw [(aroundLookups_structural _ _ _ _ _ hmem).2] at hstr
    cases hstr

/-- The elements of an array are hidden from a binding of another path exactly when they are apart from it. -/
theorem parse_opaque_iff (path : List Bytes) (items : List (Slot × Doc)) (gap : Bytes) (q : PathBase)
    (hpath : ∀ key ∈ path, key ≠ [] ∧ IsStringBody key) (hne : path ≠ []) (harray : (Doc.block false items gap).WF)
    (hkeyed : (Doc.block false items gap).Keyed) (hq : [] ∉ q) (hbelow : ¬ path <+: q) (habove : ¬ q <+: path) :
    Opaque path (.block false items gap) q ↔ Apart path items gap q := by
  constructor
  · intro h
    obtain ⟨first, hfirst⟩ : ∃ first, first ∈ q.head? := by
      cases q with
      | nil => exact absurd List.nil_prefix habove
      | cons first q => exact ⟨first, rfl⟩
    by_cases hbody : IsStringBody first
    · match path, hne with
      | [key], _ =>
        have hkey := hpath key (by simp)
        exact .inr (.inr ⟨rfl, h.root hkey.1 hkey.2 harray hkeyed hq hbelow⟩)
      | key :: key' :: keys, _ => exact .inl (h.objectFree hpath harray hkeyed hq first hfirst hbody)
    · refine .inr (.inl ?_)
      intro key hkey
      rwa [Option.some.inj (hkey.symm.trans hfirst)]
  · exact opaque_of_apart path items gap q harray hne hq hbelow

end exact

/-- `{"c":{"l":…,"v":2}}` -/
def settingPlace : Place :=
  ⟨[], [Frame.single (bytes "c"),
    ⟨[], .compact (bytes "l") true, [(.compact (bytes "v") false, .scalar false (bytes "2"))], []⟩], [], .nil, .nil⟩

/-- The elements of `[{"x":1}]` -/
def records : List (Slot × Doc) :=
  [(⟨[], none, [], false⟩, .block true [(.compact (bytes "x") false, .scalar false (bytes "1"))] [])]

theorem records_wf : (Doc.block false records []).WF := by
  have hone : IsPrimitive (bytes "1") := by simp [IsPrimitive, bytes, ch]
  have hslot : (⟨[], none, [], false⟩ : Slot).WF false := ⟨.nil, .nil, rfl, by simp⟩
  have hx : (Slot.compact (bytes "x") false).WF true := Slot.compact_wf _ _ (by decide)
  exact ⟨⟨hslot, ⟨⟨hx, hone, fun h => absurd rfl h, trivial⟩, .nil⟩, fun h => absurd rfl h, trivial⟩, .nil⟩

theorem records_keyed : (Doc.block false records []).Keyed := by
  have hx : ∀ m ∈ [(Slot.compact (bytes "x") false, Doc.scalar false (bytes "1"))], m.1.key ≠ [] := by
    simp [bytes]
  exact ⟨trivial, ⟨hx, trivial, trivial⟩, trivial⟩

theorem parse_opaque_iff_records :
    @Opaque keepFloats [bytes "c", bytes "l"] (.block false records []) [bytes "c", bytes "v"] ↔
      Apart [bytes "c", bytes "l"] records [] [bytes "c", bytes "v"] := by
  let _ := keepFloats
  exact parse_opaque_iff [bytes "c", bytes "l"] records [] [bytes "c", bytes "v"] (by decide) (by decide)
    records_wf records_keyed (by decide) (by decide) (by decide)

theorem settingPlace_root (d : Doc) (hd : d.WF) (hkeyed : d.Keyed) :
    (settingPlace.root d).WF ∧ (settingPlace.root d).Keyed := by
  have htwo : (Doc.scalar false (bytes "2")).WF := by simp [Doc.WF, IsPrimitive, bytes, ch]
  have hkey (s : String) (comma : Bool) (h : IsStringBody (bytes s)) : (Slot.compact (bytes s) comma).WF true :=
    Slot.compact_wf _ _ h
  constructor
  · exact ⟨⟨hkey "c" false (by decide), ⟨⟨hkey "l" true (by decide), hd, fun _ => rfl, hkey "v" false (by decide),
      htwo, fun h => absurd rfl h, trivial⟩, .nil⟩, fun h => absurd rfl h, trivial⟩, .nil⟩
  · exact ⟨by simp [bytes, Frame.single], ⟨by simp [bytes], hkeyed, trivial, trivial⟩, trivial⟩

/-- The brace of an object in the array cuts the path of the member behind it. -/
theorem parse_opaque_cutPath :
    settingPlace.path = [bytes "c", bytes "l"] ∧ (settingPlace.root (.block false records [])).WF ∧
      (settingPlace.root (.block false records [])).Keyed ∧
      settingPlace.text (.block false records []) = bytes "\x7b\"c\":\x7b\"l\":[\x7b\"x\":1\x7d],\"v\":2\x7d\x7d" ∧
      (@parse keepFloats (settingPlace.text (.block false records [])) [intNode [bytes "c", bytes "v"]]).map
          (List.map ParseNode.kind) = some [.bind (.int ⟨⟨.w32, true⟩, 7, by decide, by decide⟩)] ∧
      (@parse keepFloats (settingPlace.text .emptyArray) [intNode [bytes "c", bytes "v"]]).map
          (List.map ParseNode.kind) = some [.bind (.int ⟨⟨.w32, true⟩, 2, by decide, by decide⟩)] := by
  obtain ⟨hwf, hkeyed⟩ := settingPlace_root _ records_wf records_keyed
  exact ⟨by decide, hwf, hkeyed, by decide, rfl, rfl⟩

end Espbase.StackJson
