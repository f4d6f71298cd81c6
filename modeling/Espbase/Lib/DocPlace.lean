import Espbase.Lib.JsonDoc

namespace Espbase.Lib

namespace Doc

def emptyArray : Doc := .block false [] []

theorem emptyArray_wf : emptyArray.WF := ⟨trivial, nofun⟩

theorem itemsWF_replace {curly : Bool} {before after : List (Slot × Doc)} {s : Slot} {d d' : Doc}
    (h : ItemsWF curly (before ++ (s, d) :: after)) (hd' : d'.WF) :
    ItemsWF curly (before ++ (s, d') :: after) := by
  induction before with
  | nil => exact ⟨h.1, hd', h.2.2⟩
  | cons m before ih =>
    obtain ⟨hs, hd, hcomma, hrest⟩ := h
    exact ⟨hs, hd, fun _ => hcomma (by simp), ih hrest⟩

end Doc

/-- An object around a place: the members before and after it, and the slot of the member in it. -/
structure Frame where
  before : List (Slot × Doc)
  slot : Slot
  after : List (Slot × Doc)
  gap : Bytes

namespace Frame

/-- The object with a value at the place. -/
def around (f : Frame) (d : Doc) : Doc := .block true (f.before ++ (f.slot, d) :: f.after) f.gap

/-- A value inside of objects, the outermost first. -/
def fill (fs : List Frame) (d : Doc) : Doc := fs.foldr around d

@[simp] theorem fill_nil (d : Doc) : fill [] d = d := rfl

@[simp] theorem fill_cons (f : Frame) (fs : List Frame) (d : Doc) :
    fill (f :: fs) d = .block true (f.before ++ (f.slot, fill fs d) :: f.after) f.gap := rfl

theorem fill_wf (fs : List Frame) (d d' : Doc) (h : (fill fs d).WF) (hd' : d'.WF) : (fill fs d').WF := by
  induction fs with
  | nil => exact hd'
  | cons f fs ih =>
    rw [fill_cons, Doc.WF] at h ⊢
    refine ⟨Doc.itemsWF_replace h.1 (ih ?_), h.2⟩
    exact (Doc.wf_of_mem h.1 (List.mem_append_right _ (.head _))).2

theorem fill_keyed {fs : List Frame} {d : Doc} (h : (fill fs d).Keyed) :
    ∀ f ∈ fs, f.slot.key ≠ [] ∧ ∀ m ∈ f.before, m.1.key ≠ [] ∧ m.2.Keyed := by
  induction fs with
  | nil => simp
  | cons f fs ih =>
    intro g hg
    rcases List.mem_cons.mp hg with rfl | hg
    · refine ⟨h.1 (g.slot, fill fs d) (List.mem_append_right _ (.head _)), ?_⟩
      intro m hm
      have hmem : m ∈ g.before ++ (g.slot, fill fs d) :: g.after := List.mem_append_left _ hm
      exact ⟨h.1 m hmem, Doc.all_of_mem h.2 hmem⟩
    · have hmem : (f.slot, fill fs d) ∈ f.before ++ (f.slot, fill fs d) :: f.after := by simp
      exact ih (Doc.all_of_mem h.2 hmem) g hg

/-- An object with one member. -/
def single (key : Bytes) : Frame := ⟨[], .compact key false, [], []⟩

/-- A value below keys of which each is the only one in its object. -/
def chain (keys : List Bytes) (d : Doc) : Doc := fill (keys.map single) d

@[simp] theorem chain_nil (d : Doc) : chain [] d = d := rfl

@[simp] theorem chain_cons (key : Bytes) (keys : List Bytes) (d : Doc) :
    chain (key :: keys) d = .block true [(.compact key false, chain keys d)] [] := rfl

theorem chain_wf (keys : List Bytes) (d : Doc) (hkeys : ∀ key ∈ keys, IsStringBody key) (hd : d.WF) :
    (chain keys d).WF := by
  induction keys with
  | nil => exact hd
  | cons key keys ih =>
    rw [chain_cons, Doc.WF]
    refine ⟨⟨Slot.compact_wf _ _ (hkeys key (by simp)), ih fun k hk => hkeys k (by simp [hk]), ?_, trivial⟩,
      nofun⟩
    exact fun h => absurd rfl h

theorem chain_keyed (keys : List Bytes) (d : Doc) (hkeys : [] ∉ keys) (hd : d.Keyed) :
    (chain keys d).Keyed := by
  induction keys with
  | nil => exact hd
  | cons key keys ih =>
    rw [List.mem_cons, not_or] at hkeys
    refine ⟨?_, ih hkeys.2, trivial⟩
    intro m hm
    rw [List.mem_singleton.mp hm]
    exact Ne.symm hkeys.1

end Frame

/-- A place for a member in a JSON text that is reached through objects only. -/
structure Place where
  lead : Bytes
  frames : List Frame
  trail : Bytes
  lead_gap : IsGap lead
  trail_gap : IsGap trail

namespace Place

def path (p : Place) : List Bytes := p.frames.map fun f => f.slot.key

def root (p : Place) (d : Doc) : Doc := Frame.fill p.frames d

def text (p : Place) (d : Doc) : Bytes := p.lead ++ ((p.root d).text ++ p.trail)

/-- The text with a value at the place. -/
def json (p : Place) (d : Doc) (h : (p.root d).WF) : JsonText :=
  ⟨p.lead, p.root d, p.trail, p.lead_gap, p.trail_gap, h⟩

/-- In the objects around the place, the root apart, no array before it holds an object. -/
def Intact (p : Place) : Prop := ∀ f ∈ p.frames.tail, ∀ m ∈ f.before, m.2.Sealed

end Place

end Espbase.Lib
