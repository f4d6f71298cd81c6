import Espbase.StackJson.DynamicBuffer
import Espbase.StackJson.EmitCalls
import Espbase.StackJson.ValueWrite

namespace Espbase.StackJson

open Espbase.Lib

/-- Emission of nodes with these data reads no path element out of range and calls the `emit_value`
of every non-omitted node exactly once, an emission cut short by a refused write at most once: into
every buffer, with all values that are themselves emitted within bounds and leave the flags of the
other nodes alone. -/
def MergeSafe (infos : List NodeInfo) : Prop :=
  ∀ (σ : Type) [Buffer σ] (good : σ → Prop) (nodes : List (NodeBase σ)),
    nodes.map NodeBase.toNodeInfo = infos → Sound good nodes → FlagFrame nodes →
    ∀ st : Emission (Tally σ), good st.buf.buf →
      ∃ st' k vs, emitJsonNodes (nodes.map NodeBase.tallied) st = some (st', k) ∧
        st'.buf.calls = st.buf.calls ++ vs ∧
        List.Subperm vs ((infos.filter fun n => !n.omitted).map NodeInfo.id) ∧
        (k ≠ 0 → vs.Perm ((infos.filter fun n => !n.omitted).map NodeInfo.id))

section below
variable {σ : Type} {nodes : List (NodeBase σ)}

/-- The emission flags only nodes strictly below the path. -/
def FlagsBelow (nodes : List (NodeBase σ)) (current : PathBase)
    (e : Emission σ → Option (Emission σ × Bool)) : Prop :=
  ∀ st st' ok, e st = some (st', ok) → ∀ m ∈ nodes, st'.emitted m.id = true →
    st.emitted m.id = true ∨ (current <+: m.path ∧ current.length < m.path.length)

theorem FlagsBelow.andThen {current : PathBase} {e k : Emission σ → Option (Emission σ × Bool)}
    (he : FlagsBelow nodes current e) (hk : FlagsBelow nodes current k) :
    FlagsBelow nodes current fun st => StackJson.andThen (e st) k := by
  intro st st' ok h m hm hf
  rcases h1 : e st with _ | ⟨st1, _ | _⟩
  · simp [StackJson.andThen, h1] at h
  · simp only [StackJson.andThen, h1] at h
    cases h
    exact he st st1 false h1 m hm hf
  · simp only [StackJson.andThen, h1] at h
    rcases hk st1 st' ok h m hm hf with hf1 | hb
    · exact he st st1 true h1 m hm hf1
    · exact .inr hb

theorem flagsBelow_of_same (current : PathBase) (e : Emission σ → Option (Emission σ × Bool))
    (h : ∀ st st' ok, e st = some (st', ok) → st'.emitted = st.emitted) :
    FlagsBelow nodes current e := by
  intro st st' ok he m _ hf
  rw [h st st' ok he] at hf
  exact .inl hf

theorem FlagsBelow.key (current : PathBase) (key : Option Bytes)
    (k : Bytes → Emission σ → Option (Emission σ × Bool))
    (hk : ∀ s, key = some s → FlagsBelow nodes current (k s)) :
    FlagsBelow nodes current fun st => key.bind fun s => k s st := by
  intro st st' ok h
  obtain ⟨s, hs, h⟩ := Option.bind_eq_some_iff.mp h
  exact hk s hs st st' ok h

/-- Nothing is read at or beyond the depth of a path that is emitted. -/
theorem depth_of_getElement (p : PathBase) (c : Nat) (k : Bytes) (h : p.getElement c = some k) :
    c < p.length := (List.getElem?_eq_some_iff.mp h).1

theorem matches_of_not_skipped (current : PathBase) (n : NodeBase σ)
    (h : ¬ (current.depth > 0 && !n.path.matchesParent current) = true) : current <+: n.path := by
  rcases Nat.eq_zero_or_pos current.depth with h0 | h0
  · rw [List.eq_nil_of_length_eq_zero h0]
    exact List.nil_prefix
  · rw [← PathBase.matchesParent_iff]
    simpa [h0] using h

variable [Buffer σ]

theorem flagsBelow_write (current : PathBase) (str : Bytes) :
    FlagsBelow nodes current fun st => st.write str :=
  flagsBelow_of_same current _ fun st st' ok h => write_emitted st st' str ok h

theorem emitMember_below (hf : FlagFrame nodes) (recurse : PathBase → Emission σ →
      Option (Emission σ × Bool)) (current : PathBase) (n : NodeBase σ) (hn : n ∈ nodes)
    (hp : current <+: n.path) (first : Bool)
    (hr : ∀ path, FlagsBelow nodes path (recurse path)) :
    FlagsBelow nodes current (emitMember recurse current.depth n first) := by
  have hsep : FlagsBelow nodes current fun st => separator first st :=
    flagsBelow_of_same current _ fun st st' ok h => separator_emitted first st st' ok h
  refine hsep.andThen (FlagsBelow.key current _ _ ?_)
  intro key hkey
  have hlen := depth_of_getElement _ _ _ hkey
  have hescaped : FlagsBelow nodes current fun st => st.writeEscaped key :=
    flagsBelow_of_same current _ fun st st' ok h => writeEscaped_emitted st st' key ok h
  refine hescaped.andThen ((flagsBelow_write current _).andThen ?_)
  split_ifs
  · intro st st' ok h m hm hfl
    obtain ⟨st1, h1, h2⟩ := Option.bind_eq_some_iff.mp h
    cases h2
    rcases (hf n hn st _ h1 m hm).mp hfl with hold | rfl
    · exact .inl hold
    · exact .inr ⟨hp, hlen⟩
  · have hpre : current <+: n.path.view (current.depth + 1) := by
      obtain ⟨t, ht⟩ := hp
      exact ⟨t.take 1, by simp [PathBase.view, PathBase.depth, ← ht, List.take_append]⟩
    have hinner : FlagsBelow nodes current (recurse (n.path.view (current.depth + 1))) := by
      intro st st' ok h m hm hfl
      apply (hr _ st st' ok h m hm hfl).imp_right
      intro hb
      exact ⟨hpre.trans hb.1, Nat.lt_of_le_of_lt hpre.length_le hb.2⟩
    exact (flagsBelow_write current _).andThen (hinner.andThen (flagsBelow_write current _))

theorem emitLoop_below (hf : FlagFrame nodes) (recurse : PathBase → Emission σ →
      Option (Emission σ × Bool)) (current : PathBase) (rest : List (NodeBase σ))
    (hrest : ∀ n ∈ rest, n ∈ nodes) (first : Bool)
    (hr : ∀ path, FlagsBelow nodes path (recurse path)) :
    FlagsBelow nodes current (emitLoop recurse current rest first) := by
  induction rest generalizing first with
  | nil =>
    exact flagsBelow_of_same current _ fun st st' ok h => by
      cases h
      rfl
  | cons n rest ih =>
    have ih (first) := ih (fun m hm => hrest m (by simp [hm])) first
    intro st st' ok h
    rw [emitLoop] at h
    split_ifs at h with h1 h2
    · exact ih first st st' ok h
    · exact ih first st st' ok h
    · have hp := matches_of_not_skipped current n h2
      exact (emitMember_below hf recurse current n (hrest n (by simp)) hp first hr).andThen
        (ih false) st st' ok h

theorem emitLevel_below (hf : FlagFrame nodes) (fuel : Nat) (current : PathBase) :
    FlagsBelow nodes current (emitLevel nodes fuel current) := by
  induction fuel generalizing current with
  | zero => exact fun st st' ok h => nomatch h
  | succ fuel ih => exact emitLoop_below hf _ current nodes (fun _ hn => hn) true ih

/-- What a completed member consists of. -/
theorem emitMember_completed (recurse : PathBase → Emission σ → Option (Emission σ × Bool)) (c : Nat)
    (n : NodeBase σ) (first : Bool) (st st' : Emission σ)
    (h : emitMember recurse c n first st = some (st', true)) :
    c < n.path.length ∧ ∃ st1 : Emission σ, st1.emitted = st.emitted ∧
      if n.path.length = c + 1 then n.emitValue st1 = some st'
      else ∃ st2, recurse (n.path.view (c + 1)) st1 = some (st2, true) ∧
        st'.emitted = st2.emitted := by
  obtain ⟨s1, h1, h⟩ := andThen_eq_true _ _ _ h
  obtain ⟨key, hkey, h⟩ := Option.bind_eq_some_iff.mp h
  obtain ⟨s2, h2, h⟩ := andThen_eq_true _ _ _ h
  obtain ⟨s3, h3, h⟩ := andThen_eq_true _ _ _ h
  have hflags : s3.emitted = st.emitted := by
    rw [write_emitted _ _ _ _ h3, writeEscaped_emitted _ _ _ _ h2, separator_emitted _ _ _ _ h1]
  refine ⟨depth_of_getElement _ _ _ hkey, ?_⟩
  change (if n.path.length = c + 1 then _ else _) = _ at h
  split_ifs at h ⊢ with hd
  · obtain ⟨s4, h4, h5⟩ := Option.bind_eq_some_iff.mp h
    cases h5
    exact ⟨s3, hflags, h4⟩
  · obtain ⟨s4, h4, h⟩ := andThen_eq_true _ _ _ h
    obtain ⟨s5, h5, h6⟩ := andThen_eq_true _ _ _ h
    exact ⟨s4, (write_emitted _ _ _ _ h4).trans hflags, s5, h5, write_emitted _ _ _ _ h6⟩

/-- A completed member leaves the nodes live that are not in it. -/
theorem emitMember_keeps (hf : FlagFrame nodes) (fuel : Nat) (current : PathBase) (x y : NodeBase σ)
    (hx : x ∈ nodes) (hy : y ∈ nodes) (first : Bool) (st st' : Emission σ)
    (h : emitMember (emitLevel nodes fuel) current.depth x first st = some (st', true))
    (hne : y ≠ x)
    (hout : x.path.length ≠ current.depth + 1 → ¬ x.path.view (current.depth + 1) <+: y.path)
    (hl : Live st y) : Live st' y := by
  obtain ⟨-, s1, hs1, h⟩ := emitMember_completed _ _ x first st st' h
  refine ⟨?_, hl.2⟩
  have hold : s1.emitted y.id = false := by
    rw [hs1]
    exact hl.1
  split_ifs at h with hleaf
  · have := hf x hx s1 st' h y hy
    rw [hold] at this
    simpa [hne] using this
  · obtain ⟨s2, hinner, hs2⟩ := h
    by_contra hflag
    rw [hs2, Bool.not_eq_false] at hflag
    rcases emitLevel_below hf fuel _ s1 s2 true hinner y hy hflag with hset | hb
    · rw [hold] at hset
      cases hset
    · exact hout hleaf hb.1

/-- A level does not complete while a live node ends at its own path: the element behind the end of
that node's path would be read. -/
theorem emitLoop_stuck_at (hf : FlagFrame nodes) (fuel : Nat) (n : NodeBase σ) (hn : n ∈ nodes)
    (rest : List (NodeBase σ)) (hrest : ∀ m ∈ rest, m ∈ nodes) (hin : n ∈ rest) (first : Bool)
    (st st' : Emission σ) (hl : Live st n) :
    emitLoop (emitLevel nodes fuel) n.path rest first st ≠ some (st', true) := by
  induction rest generalizing first st with
  | nil => cases hin
  | cons x rest ih =>
    have ih (hin) (first) (st) := ih (fun m hm => hrest m (by simp [hm])) hin first st
    intro h
    rw [emitLoop] at h
    have htail (hne : n ≠ x) : n ∈ rest := (List.mem_cons.mp hin).resolve_left hne
    split_ifs at h with h1 h2
    · refine ih (htail ?_) first st hl h
      intro he
      rw [← he, hl.1, hl.2] at h1
      cases h1
    · refine ih (htail ?_) first st hl h
      intro he
      rw [← he] at h2
      simp [(PathBase.matchesParent_iff _ _).mpr List.prefix_rfl] at h2
    · obtain ⟨st1, hx, h⟩ := andThen_eq_true _ _ _ h
      have hxn := (emitMember_completed _ _ x first st st1 hx).1
      have hne : n ≠ x := fun he => by
        rw [← he] at hxn
        exact Nat.lt_irrefl _ hxn
      refine ih (htail hne) false st1 (emitMember_keeps hf fuel n.path x n (hrest x (by simp)) hn first
        st st1 hx hne ?_ hl) h
      intro _ hpn
      have := hpn.length_le
      simp only [PathBase.view, PathBase.depth, List.length_take] at this hxn
      omega

/-- A level above the path of `n` does not complete while a deeper node `m` comes before `n` and
both are live. -/
theorem emitLevel_stuck (hf : FlagFrame nodes) (hnd : nodes.Nodup) (m n : NodeBase σ)
    (hmn : List.Sublist [m, n] nodes) (hp : n.path <+: m.path) (hlen : n.path.length < m.path.length)
    (fuel : Nat) (current : PathBase) (hc : current <+: n.path)
    (st st' : Emission σ) (hlm : Live st m) (hln : Live st n) :
    emitLevel nodes fuel current st ≠ some (st', true) := by
  have hm : m ∈ nodes := hmn.subset (by simp)
  have hn : n ∈ nodes := hmn.subset (by simp)
  induction fuel generalizing current st st' with
  | zero => exact nofun
  | succ fuel ih =>
    rcases Nat.lt_or_ge current.length n.path.length with hclt | hcge
    · suffices hloop : ∀ rest : List (NodeBase σ), (∀ x ∈ rest, x ∈ nodes) → rest.Nodup →
          List.Sublist [m, n] rest → ∀ first st st', Live st m → Live st n →
          emitLoop (emitLevel nodes fuel) current rest first st ≠ some (st', true) from
        hloop nodes (fun _ hx => hx) hnd hmn true st st' hlm hln
      intro rest hrest hrnd hsub
      induction rest with
      | nil => cases hsub
      | cons x rest ihr =>
        have hxr := List.nodup_cons.mp hrnd
        have ihr (hsub) := ihr (fun y hy => hrest y (by simp [hy])) hxr.2 hsub
        intro first st st' hlm hln h
        rw [emitLoop] at h
        have htail (hne : m ≠ x) : List.Sublist [m, n] rest := by
          cases hsub with
          | cons _ h => exact h
          | cons_cons _ h => exact absurd rfl hne
        split_ifs at h with h1 h2
        · refine ihr (htail ?_) first st st' hlm hln h
          intro he
          rw [← he, hlm.1, hlm.2] at h1
          cases h1
        · refine ihr (htail ?_) first st st' hlm hln h
          intro he
          rw [← he] at h2
          simp [(PathBase.matchesParent_iff _ _).mpr (hc.trans hp)] at h2
        · obtain ⟨st1, hx, h⟩ := andThen_eq_true _ _ _ h
          have hlater (hne : m ≠ x) (hlm1 : Live st1 m) (hln1 : Live st1 n) : False :=
            ihr (htail hne) false st1 st' hlm1 hln1 h
          have hkeep (y) (hy) := emitMember_keeps hf fuel current x y (hrest x (by simp)) hy first st
            st1 hx
          obtain ⟨hxlen, s1, hs1, hx1⟩ := emitMember_completed _ _ x first st st1 hx
          have hcd : current.depth = current.length := rfl
          by_cases hin : x.path.length ≠ current.depth + 1 ∧
              x.path.view (current.depth + 1) <+: n.path
          · -- the inner object of `x` is on the way to `n`
            rw [if_neg hin.1] at hx1
            obtain ⟨s2, hinner, -⟩ := hx1
            exact ih _ hin.2 s1 s2 ⟨by rw [hs1]; exact hlm.1, hlm.2⟩
              ⟨by rw [hs1]; exact hln.1, hln.2⟩ hinner
          · have haside (hxd : x.path.length ≠ current.depth + 1) :
                ¬ x.path.view (current.depth + 1) <+: m.path := fun hpm => by
              refine hin ⟨hxd, List.prefix_of_prefix_length_le hpm hp ?_⟩
              simp only [PathBase.view, List.length_take]
              omega
            have hmx : m ≠ x := fun he => haside (by rw [← he]; omega) (he ▸ List.take_prefix _ _)
            have hnx : n ≠ x := fun he => hxr.1 (he ▸ (htail hmx).subset (by simp))
            exact hlater hmx (hkeep m hm hmx haside hlm)
              (hkeep n hn hnx (fun hxd hpn => hin ⟨hxd, hpn⟩) hln)
    · have hcn : current = n.path := hc.eq_of_length_le hcge
      rw [hcn]
      exact emitLoop_stuck_at hf fuel n hn nodes (fun _ hx => hx) hn true st st' hln

theorem emitMember_congr (recurse recurse' : PathBase → Emission σ → Option (Emission σ × Bool))
    (c : Nat) (n : NodeBase σ) (first : Bool) (st : Emission σ)
    (h : c + 1 < n.path.length → ∀ st, recurse (n.path.view (c + 1)) st =
      recurse' (n.path.view (c + 1)) st) :
    emitMember recurse c n first st = emitMember recurse' c n first st := by
  apply andThen_congr _ _ _
  intro st _
  rcases hkey : n.path.getElement c with _ | key
  · rfl
  · have hlen := depth_of_getElement _ _ _ hkey
    simp only [Option.bind_eq_bind, Option.bind_some]
    refine andThen_congr _ _ _ fun st _ => andThen_congr _ _ _ ?_
    intro st _
    split_ifs with hd
    · rfl
    · simp only [PathBase.depth] at hd
      apply andThen_congr _ _ _
      intro st _
      rw [h (by omega)]

theorem emitLoop_congr (recurse recurse' : PathBase → Emission σ → Option (Emission σ × Bool))
    (current : PathBase) (rest : List (NodeBase σ)) (first : Bool) (st : Emission σ)
    (h : ∀ n ∈ rest, current.length + 1 < n.path.length → ∀ st,
      recurse (n.path.view (current.length + 1)) st =
        recurse' (n.path.view (current.length + 1)) st) :
    emitLoop recurse current rest first st = emitLoop recurse' current rest first st := by
  induction rest generalizing first st with
  | nil => rfl
  | cons n rest ih =>
    have ih (first st) := ih first st fun m hm => h m (by simp [hm])
    rw [emitLoop, emitLoop]
    split_ifs
    · exact ih first st
    · exact ih first st
    · rw [emitMember_congr recurse recurse' current.depth n first st (h n (by simp))]
      exact andThen_congr _ _ _ fun st _ => ih false st

/-- The recursion never goes deeper than the longest path, so its bound is not what ends it. -/
theorem emitLevel_fuel (nodes : List (NodeBase σ)) (fuel extra : Nat) (current : PathBase)
    (st : Emission σ) (hpos : 0 < fuel)
    (h : ∀ n ∈ nodes, n.path.length ≤ current.length + fuel) :
    emitLevel nodes (fuel + extra) current st = emitLevel nodes fuel current st := by
  induction fuel generalizing current st with
  | zero => exact absurd hpos (Nat.lt_irrefl 0)
  | succ fuel ih =>
    rw [Nat.succ_add, emitLevel, emitLevel]
    apply emitLoop_congr
    intro n hn hdeep st
    have hview : (n.path.view (current.length + 1)).length = current.length + 1 := by
      simp only [PathBase.view, List.length_take]
      omega
    have hn' := h n hn
    apply ih
    · omega
    · intro m hm
      have := h m hm
      omega

end below

section unrefused
variable {σ : Type} [Buffer σ] {good : σ → Prop}

/-- The buffer takes every write. -/
structure Accepting (good : σ → Prop) : Prop where
  write : ∀ b str b' n, good b → str ≠ [] → Buffer.write b str = some (b', n) → n ≠ 0 ∧ good b'
  writeEscaped : ∀ b str b' n, good b → StackJson.writeEscaped b str = some (b', n) →
    n ≠ 0 ∧ good b'

/-- The emission reports no failure. -/
def Unrefused (good : σ → Prop) (e : Emission σ → Option (Emission σ × Bool)) : Prop :=
  ∀ st st' ok, good st.buf → e st = some (st', ok) → ok = true ∧ good st'.buf

omit [Buffer σ] in
theorem Unrefused.andThen {e k : Emission σ → Option (Emission σ × Bool)} (he : Unrefused good e)
    (hk : Unrefused good k) : Unrefused good fun st => StackJson.andThen (e st) k := by
  intro st st' ok hg h
  rcases h1 : e st with _ | ⟨st1, ok1⟩
  · simp [StackJson.andThen, h1] at h
  · obtain ⟨rfl, hg1⟩ := he st st1 ok1 hg h1
    simp only [StackJson.andThen, h1] at h
    exact hk st1 st' ok hg1 h

theorem Accepting.put (ha : Accepting good) (c : UInt8) :
    Unrefused good fun st : Emission σ => st.write [c] := by
  intro st st' ok hg h
  obtain ⟨⟨b', n⟩, hb, h⟩ := Option.bind_eq_some_iff.mp h
  obtain ⟨hn, hg'⟩ := ha.write _ _ _ _ hg (by simp) hb
  cases h
  exact ⟨by simpa using hn, hg'⟩

theorem Accepting.putKey (ha : Accepting good) (key : Bytes) :
    Unrefused good fun st : Emission σ => st.writeEscaped key := by
  intro st st' ok hg h
  obtain ⟨⟨b', n⟩, hb, h⟩ := Option.bind_eq_some_iff.mp h
  obtain ⟨hn, hg'⟩ := ha.writeEscaped _ _ _ _ hg hb
  cases h
  exact ⟨by simpa using hn, hg'⟩

theorem Unrefused.emitMember (ha : Accepting good) (recurse : PathBase → Emission σ →
      Option (Emission σ × Bool)) (c : Nat) (n : NodeBase σ) (first : Bool)
    (hr : ∀ path, Unrefused good (recurse path))
    (hn : ∀ st st', good st.buf → n.emitValue st = some st' → good st'.buf) :
    Unrefused good (emitMember recurse c n first) := by
  have hsep : Unrefused good fun st : Emission σ => separator first st := by
    cases first
    · exact ha.put _
    · intro st st' ok hg h
      cases h
      exact ⟨rfl, hg⟩
  refine hsep.andThen ?_
  intro st st' ok hg h
  obtain ⟨key, -, h⟩ := Option.bind_eq_some_iff.mp h
  refine ((ha.putKey key).andThen ((ha.put _).andThen ?_)) st st' ok hg h
  split_ifs
  · intro st st' ok hg h
    obtain ⟨st1, h1, h2⟩ := Option.bind_eq_some_iff.mp h
    cases h2
    exact ⟨rfl, hn st _ hg h1⟩
  · exact (ha.put _).andThen ((hr _).andThen (ha.put _))

theorem Unrefused.emitLoop (ha : Accepting good) (recurse : PathBase → Emission σ →
      Option (Emission σ × Bool)) (current : PathBase) (nodes : List (NodeBase σ)) (first : Bool)
    (hr : ∀ path, Unrefused good (recurse path))
    (hn : ∀ n ∈ nodes, ∀ st st', good st.buf → n.emitValue st = some st' → good st'.buf) :
    Unrefused good (emitLoop recurse current nodes first) := by
  induction nodes generalizing first with
  | nil =>
    intro st st' ok hg h
    cases h
    exact ⟨rfl, hg⟩
  | cons n nodes ih =>
    have ih (first) := ih first fun m hm => hn m (by simp [hm])
    intro st st' ok hg h
    rw [StackJson.emitLoop] at h
    split_ifs at h
    · exact ih first st st' ok hg h
    · exact ih first st st' ok hg h
    · exact ((Unrefused.emitMember ha recurse _ n first hr (hn n (by simp))).andThen (ih false))
        st st' ok hg h

theorem Unrefused.emitLevel (ha : Accepting good) (nodes : List (NodeBase σ)) (fuel : Nat)
    (current : PathBase)
    (hn : ∀ n ∈ nodes, ∀ st st', good st.buf → n.emitValue st = some st' → good st'.buf) :
    Unrefused good (emitLevel nodes fuel current) := by
  induction fuel generalizing current with
  | zero => exact fun st st' ok _ h => nomatch h
  | succ fuel ih => exact Unrefused.emitLoop ha _ current nodes true ih hn

/-- With a deeper node before a node on its way, emission runs into the read behind a path: it
neither completes nor, when no write is refused, returns at all. -/
theorem emitJsonNodes_stuck (ha : Accepting good) (nodes : List (NodeBase σ)) (hf : FlagFrame nodes)
    (hnd : nodes.Nodup)
    (hn : ∀ n ∈ nodes, ∀ st st', good st.buf → n.emitValue st = some st' → good st'.buf)
    (m n : NodeBase σ) (hmn : List.Sublist [m, n] nodes) (hm : m.omitted = false)
    (hno : n.omitted = false) (hp : n.path <+: m.path) (hne : n.path ≠ m.path) (hroot : n.path ≠ [])
    (st : Emission σ) (hg : good st.buf) : emitJsonNodes nodes st = none := by
  have hlen : n.path.length < m.path.length :=
    Nat.lt_of_le_of_ne hp.length_le fun h => hne (hp.eq_of_length h)
  have hpos := List.length_pos_iff.mpr hroot
  have hmem : m ∈ nodes := hmn.subset (by simp)
  have hnem : ¬ nodes.isEmpty = true := by
    intro he
    rw [List.isEmpty_iff] at he
    rw [he] at hmem
    cases hmem
  have hnest : nodes.any (fun n => n.path.depth > 1) = true := by
    have hdeep : 1 < m.path.length := by omega
    exact List.any_eq_true.mpr ⟨m, hmem, decide_eq_true hdeep⟩
  have hreset (x : NodeBase σ) (hx : x ∈ nodes) : (resetAll nodes st).emitted x.id = false := by
    rw [resetAll_emitted, if_pos (List.mem_map.mpr ⟨x, hx, rfl⟩)]
  unfold emitJsonNodes
  simp only [if_neg hnem, if_pos hnest]
  rcases hrun : emitBraced (emitLevel nodes (maxDepth nodes) []) (resetAll nodes st) with _ | ⟨s, ok⟩
  · rfl
  · exfalso
    have hbraced : Unrefused good (emitBraced (emitLevel nodes (maxDepth nodes) [])) :=
      (ha.put _).andThen ((Unrefused.emitLevel ha nodes _ [] hn).andThen (ha.put _))
    obtain ⟨rfl, -⟩ := hbraced _ s ok (by rw [resetAll_buf]; exact hg) hrun
    obtain ⟨s1, h1, hrun⟩ := andThen_eq_true _ _ _ hrun
    obtain ⟨s2, h2, -⟩ := andThen_eq_true _ _ _ hrun
    have hflags := write_emitted _ _ _ _ h1
    exact emitLevel_stuck hf hnd m n hmn hp hlen _ [] List.nil_prefix s1 s2
      ⟨by rw [hflags]; exact hreset m hmem, hm⟩
      ⟨by rw [hflags]; exact hreset n (hmn.subset (by simp)), hno⟩ h2

end unrefused

section dynamic
variable {expandSize : Nat}

/-- The invariant of a dynamic buffer under emission. -/
def DynamicBuffer.Good (b : DynamicBuffer expandSize) : Prop := b.Within ∧ b.bad = false

theorem DynamicBuffer.Appended.good {b b' : DynamicBuffer expandSize} {w : Bytes} (h : b.Good)
    (ha : Appended b w b') : b'.Good := ⟨ha.within, ha.bad.trans h.2⟩

/-- A dynamic buffer takes every write. -/
theorem DynamicBuffer.accepting :
    Accepting fun t : Tally (DynamicBuffer expandSize) => t.buf.Good := by
  constructor
  · intro t str t' n hg hne h
    obtain ⟨b', hb, ha⟩ := write_appends t.buf str hg.1
    rw [Tally.write_eq, hb] at h
    cases h
    exact ⟨by simp [hne], ha.good hg⟩
  · intro t str t' n hg h
    obtain ⟨b', k, hb, hk, ha⟩ := writeEscaped_appends t.buf str hg.1 hg.2
    rw [Tally.writeEscaped_eq, hb] at h
    cases h
    exact ⟨hk, ha.good hg⟩

/-- Nodes with these data and the value null. -/
def nullNodes (infos : List NodeInfo) : List (NodeBase (DynamicBuffer expandSize)) :=
  infos.map fun n => valueNode n .null

theorem nullNode_emits (n : NodeInfo) (st : Emission (DynamicBuffer expandSize))
    (hg : st.buf.Good) : ∃ st', (valueNode n .null).emitValue st = some st' ∧ st'.buf.Good := by
  obtain ⟨b', hb, ha⟩ := DynamicBuffer.write_appends st.buf (bytes "null") hg.1
  refine ⟨Emission.onEmit { st with buf := b' } n.id, ?_, ha.good hg⟩
  simp [valueNode, writeJsonValue, Emission.put, Emission.write, hb]

theorem nullNodes_sound (infos : List NodeInfo) :
    Sound DynamicBuffer.Good (@nullNodes expandSize infos) := by
  refine ⟨?_, ?_, ?_⟩
  · intro b str hg
    obtain ⟨b', hb, ha⟩ := DynamicBuffer.write_appends b str hg.1
    exact ⟨b', _, hb, ha.good hg⟩
  · intro b str hg
    obtain ⟨b', k, hb, -, ha⟩ := DynamicBuffer.writeEscaped_appends b str hg.1 hg.2
    exact ⟨b', k, hb, ha.good hg⟩
  · intro n hn st hg
    obtain ⟨m, -, rfl⟩ := List.mem_map.mp hn
    exact nullNode_emits m st hg

theorem nullNodes_flags (infos : List NodeInfo) (hdistinct : (infos.map NodeInfo.id).Nodup) :
    FlagFrame (@nullNodes expandSize infos) := by
  have hinner : innerIds (infos.map fun n => (n, Value.null)) = [] := by
    induction infos with
    | nil => rfl
    | cons n infos ih => exact ih (List.nodup_cons.mp hdistinct).2
  have h := valueNodes_flags (σ := DynamicBuffer expandSize) (infos.map fun n => (n, Value.null))
    (by rw [List.map_map]; exact hdistinct) (by simp [hinner])
  rwa [valueNodes_eq, List.map_map] at h

end dynamic

/-- Valid values are sound on stack buffers of every capacity. -/
theorem valueNodes_sound (maxSize : Nat) (nodes : List (NodeInfo × Value))
    (hvalid : ValidNodes nodes) :
    Sound (@StackBuffer.Within maxSize) (valueNodes nodes) := by
  have escaped (b : StackBuffer maxSize) (str : Bytes) (hw : b.Within) :
      ∃ b' n, writeEscaped b str = some (b', n) ∧ b'.Within := by
    cases hg : b.bad with
    | true => exact ⟨b, 0, StackBuffer.writeEscaped_bad b str hg, hw⟩
    | false =>
      obtain ⟨b', n, hb, hs⟩ := StackBuffer.writeEscaped_sent b str hw hg
      exact ⟨b', n, hb, hs.grows.within⟩
  refine ⟨?_, escaped, ?_⟩
  · intro b str hw
    rcases Nat.lt_or_ge maxSize (b.head + str.length) with hm | hf
    · exact ⟨b.fail, 0, StackBuffer.write_misfit b str hm, hw⟩
    · obtain ⟨b', hb, ha⟩ := StackBuffer.write_fits b str hf
      exact ⟨b', _, hb, ha.within⟩
  · intro n hn st hw
    rw [valueNodes_eq] at hn
    obtain ⟨p, hp, rfl⟩ := List.mem_map.mp hn
    obtain ⟨st', he, hem⟩ := nodes_puts nodes hvalid p hp st hw
    exact ⟨st'.onEmit p.1.id, by simp [valueNode, he], hem.grows.within⟩

/-- A merge of distinct nodes is safe exactly when no non-omitted node comes after a non-omitted node
that lies below its path. -/
theorem mergeSafe_iff (infos : List NodeInfo) (hdistinct : (infos.map NodeInfo.id).Nodup)
    (hpaths : ∀ n ∈ infos, n.path ≠ []) :
    MergeSafe infos ↔ infos.Pairwise fun m n =>
      m.omitted = false → n.omitted = false → n.path <+: m.path → n.path = m.path := by
  constructor
  · intro hsafe
    apply List.pairwise_iff_forall_sublist.mpr
    intro m n hmn hm hn hp
    by_contra hne
    let nodes : List (NodeBase (DynamicBuffer 1)) := nullNodes infos
    let mark (i : NodeInfo) : NodeBase (Tally (DynamicBuffer 1)) := (valueNode i .null).tallied
    have hmark : nodes.map NodeBase.tallied = infos.map mark := List.map_map
    have hids : (nodes.map fun n => n.id) = infos.map NodeInfo.id := List.map_map
    have hflags := @nullNodes_flags 1 infos hdistinct
    have hnd : (nodes.map NodeBase.tallied).Nodup := by
      rw [hmark]
      refine List.Nodup.of_map (fun n => n.id) ?_
      rw [List.map_map]
      exact hdistinct
    have hgood (x : NodeBase (Tally (DynamicBuffer 1))) (hx : x ∈ nodes.map NodeBase.tallied)
        (st st' : Emission (Tally (DynamicBuffer 1))) (hg : st.buf.buf.Good)
        (he : x.emitValue st = some st') : st'.buf.buf.Good := by
      obtain ⟨y, hy, rfl⟩ := List.mem_map.mp hx
      obtain ⟨i, -, rfl⟩ := List.mem_map.mp hy
      obtain ⟨st1, h1, rfl⟩ := Option.map_eq_some_iff.mp he
      obtain ⟨st2, h2, hg2⟩ := nullNode_emits i ⟨st.buf.buf, st.emitted⟩ hg
      rw [h1] at h2
      cases h2
      exact hg2
    have hstart : (DynamicBuffer.empty 1).Good := ⟨Nat.zero_le _, rfl⟩
    have hstuck := emitJsonNodes_stuck DynamicBuffer.accepting (nodes.map NodeBase.tallied)
      (tallied_flags hflags (by rw [hids]; exact hdistinct)) hnd hgood (mark m) (mark n)
      (by rw [hmark]; exact hmn.map mark) hm hn hp hne (hpaths n (hmn.subset (by simp)))
      ⟨⟨DynamicBuffer.empty 1, []⟩, fun _ => false⟩ hstart
    obtain ⟨st', k, vs, he, -⟩ := hsafe _ DynamicBuffer.Good nodes
      (by simp [nodes, nullNodes, valueNode, Function.comp_def]) (nullNodes_sound infos) hflags
      ⟨⟨DynamicBuffer.empty 1, []⟩, fun _ => false⟩ hstart
    rw [hstuck] at he
    cases he
  · intro horder σ _ good nodes hinfos hs hf st hg
    subst hinfos
    rw [List.map_map] at hdistinct
    rw [List.pairwise_map] at horder
    obtain ⟨st', k, vs, he, hcalls, hsub, hall⟩ := emitJsonNodes_calls hs hf hdistinct
      (fun n hn => hpaths n.toNodeInfo (List.mem_map.mpr ⟨n, hn, rfl⟩)) horder st hg
    have hshown : ((nodes.map NodeBase.toNodeInfo).filter fun n => !n.omitted).map NodeInfo.id =
        (nodes.filter fun n => !n.omitted).map fun n => n.id := by
      rw [List.filter_map, List.map_map]
      rfl
    rw [hshown]
    exact ⟨st', k, vs, he, hcalls, hsub, hall⟩

/-- The path of each node is equal to or below the path of an earlier one, or apart from it. -/
def prefixFirst : List NodeInfo :=
  [⟨0, false, [bytes "a"]⟩, ⟨1, false, [bytes "a", bytes "b"]⟩, ⟨2, true, [bytes "c"]⟩,
   ⟨3, false, [bytes "a", bytes "b"]⟩, ⟨4, false, [bytes "c", bytes "d", bytes "e"]⟩]

theorem mergeSafe_iff_prefixFirst : MergeSafe prefixFirst :=
  (mergeSafe_iff prefixFirst (by decide) (by decide)).mpr (by decide)

/-- The member `a.b` of one document and the member `a` of another. -/
def prefixBehind : List (NodeInfo × Value) :=
  [(⟨0, false, [bytes "a", bytes "b"]⟩, .bool true), (⟨1, false, [bytes "a"]⟩, .bool false)]

/-- The recursion for `a` takes up the node that ends there and reads the element behind its path; in
the other order both nodes are emitted. -/
theorem emitDocument_prefixBehind :
    (prefixBehind.map fun p => p.1.id).Nodup ∧ (∀ p ∈ prefixBehind, p.1.path ≠ []) ∧
      PathBase.getElement [bytes "a"] 1 = none ∧
      emitDocument prefixBehind ⟨StackBuffer.empty 64, fun _ => false⟩ = none ∧
      (emitDocument prefixBehind.reverse ⟨StackBuffer.empty 64, fun _ => false⟩).map Prod.snd =
        some 26 := by
  decide +kernel

end Espbase.StackJson
