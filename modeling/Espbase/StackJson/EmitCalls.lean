import Espbase.StackJson.EmitNodes

namespace Espbase.StackJson

open Espbase.Lib

variable {σ : Type} [Buffer σ]

/-- A buffer together with a record of the nodes whose `emit_value` was called. -/
structure Tally (σ : Type) where
  buf : σ
  calls : List Nat

namespace Tally

/-- The result of an operation of the buffer; the record stays. -/
def keep {α : Type} (t : Tally σ) (r : σ × α) : Tally σ × α := (⟨r.1, t.calls⟩, r.2)

instance : Buffer (Tally σ) where
  write t str := (Buffer.write t.buf str).map t.keep
  getWriteSpan t := t.keep (Buffer.getWriteSpan t.buf)
  load t i := Buffer.load t.buf i
  store t i str := (Buffer.store t.buf i str).map fun b => ⟨b, t.calls⟩
  commit t count := (Buffer.commit t.buf count).map fun b => ⟨b, t.calls⟩
  length t := Buffer.length t.buf
  bad t := Buffer.bad t.buf
  fail t := ⟨Buffer.fail t.buf, t.calls⟩

theorem write_eq (t : Tally σ) (str : Bytes) :
    Buffer.write t str = (Buffer.write t.buf str).map t.keep := rfl

theorem flush_eq (t : Tally σ) (run : Bytes) : flush t run = (flush t.buf run).map t.keep := by
  unfold flush
  split_ifs
  · rfl
  · rw [write_eq]
    cases Buffer.write t.buf run <;> rfl

theorem escapeLoop_eq (str : Bytes) (t : Tally σ) (run : Bytes) :
    escapeLoop t run str = (escapeLoop t.buf run str).map t.keep := by
  induction str generalizing t run with
  | nil => exact flush_eq t run
  | cons c str ih =>
    rw [escapeLoop, escapeLoop]
    split_ifs
    · rw [flush_eq]
      rcases flush t.buf run with _ | ⟨b1, _ | _⟩
      · rfl
      · rfl
      · simp only [Option.map_some, keep, Option.bind_eq_bind, Option.bind_some, if_true, write_eq]
        rcases Buffer.write b1 (escapeSequence c) with _ | ⟨b2, n⟩
        · rfl
        · simp only [Option.map_some, Option.bind_some, keep]
          split_ifs
          · rfl
          · exact ih ⟨b2, t.calls⟩ []
    · exact ih t (run ++ [c])

theorem writeQuoted_eq (t : Tally σ) (str : Bytes) (before : Nat) :
    writeQuoted t str before = (writeQuoted t.buf str before).map t.keep := by
  unfold writeQuoted
  rw [write_eq]
  rcases Buffer.write t.buf [ch '"'] with _ | ⟨b1, n1⟩
  · rfl
  · simp only [Option.map_some, keep, Option.bind_eq_bind, Option.bind_some]
    split_ifs
    · rfl
    · rw [escapeLoop_eq]
      rcases escapeLoop b1 [] str with _ | ⟨b2, _ | _⟩
      · rfl
      · rfl
      · simp only [Option.map_some, keep, Option.bind_some, if_true, write_eq]
        rcases Buffer.write b2 [ch '"'] with _ | ⟨b3, n3⟩
        · rfl
        · simp only [Option.map_some, keep, Option.bind_some]
          split_ifs <;> rfl

theorem copyContent_eq (t : Tally σ) (str : Bytes) :
    copyContent t str = (copyContent t.buf str).map fun b => ⟨b, t.calls⟩ := by
  unfold copyContent
  split_ifs <;> rfl

theorem writeOneShot_eq (t : Tally σ) (str : Bytes) :
    writeOneShot t str = (writeOneShot t.buf str).map t.keep := by
  unfold writeOneShot
  change ((Buffer.store t.buf 0 [ch '"']).map _).bind _ = _
  rcases Buffer.store t.buf 0 [ch '"'] with _ | b1
  · rfl
  · simp only [Option.map_some, Option.bind_some, Option.bind_eq_bind, copyContent_eq]
    rcases copyContent b1 str with _ | b2
    · rfl
    · simp only [Option.map_some, Option.bind_some]
      change ((Buffer.store b2 _ [ch '"']).map _).bind _ = _
      rcases Buffer.store b2 (str.length + 2 - 1) [ch '"'] with _ | b3
      · rfl
      · simp only [Option.map_some, Option.bind_some]
        change ((Buffer.commit b3 _).map _).bind _ = _
        cases Buffer.commit b3 (str.length + 2) <;> rfl

/-- `write_escaped` leaves the record alone. -/
theorem writeEscaped_eq (t : Tally σ) (str : Bytes) :
    writeEscaped t str = (writeEscaped t.buf str).map t.keep := by
  unfold writeEscaped
  change (if Buffer.bad t.buf then _ else _) = _
  split_ifs
  · rfl
  · exact writeQuoted_eq t str _
  · change (if str.length + 2 ≤ (Buffer.getWriteSpan t.buf).2 then _ else _) = _
    simp only
    split_ifs
    · exact writeOneShot_eq ⟨_, t.calls⟩ str
    · exact writeQuoted_eq ⟨_, t.calls⟩ str _

end Tally

/-- The node with its calls recorded. -/
def NodeBase.tallied (n : NodeBase σ) : NodeBase (Tally σ) :=
  ⟨n.toNodeInfo, fun st => (n.emitValue ⟨st.buf.buf, st.emitted⟩).map fun st' =>
    ⟨⟨st'.buf, st.buf.calls ++ [n.id]⟩, st'.emitted⟩⟩

/-- Under the invariant `good`, the operations of the buffer and the values of the nodes make no
access outside the storage. -/
structure Sound (good : σ → Prop) (nodes : List (NodeBase σ)) : Prop where
  write : ∀ b str, good b → ∃ b' n, Buffer.write b str = some (b', n) ∧ good b'
  writeEscaped : ∀ b str, good b → ∃ b' n, StackJson.writeEscaped b str = some (b', n) ∧ good b'
  values : ∀ n ∈ nodes, ∀ st, good st.buf → ∃ st', n.emitValue st = some st' ∧ good st'.buf

section calls
variable {good : σ → Prop} {nodes : List (NodeBase σ)}

theorem Sound.runItem (hs : Sound good nodes) (it : Item (NodeBase (Tally σ)))
    (hit : ∀ n ∈ itemValues [it], n ∈ nodes.map NodeBase.tallied) (st : Emission (Tally σ))
    (hg : good st.buf.buf) :
    ∃ st' ok, runItem st it = some (st', ok) ∧ good st'.buf.buf ∧
      st'.buf.calls = st.buf.calls ++ (itemValues [it]).map fun n => n.id := by
  cases it with
  | punct c =>
    obtain ⟨b', n, he, hg'⟩ := hs.write st.buf.buf [c] hg
    refine ⟨⟨⟨b', st.buf.calls⟩, st.emitted⟩, n != 0, ?_, hg', by simp [itemValues]⟩
    simp [StackJson.runItem, Emission.write, Tally.write_eq, he, Tally.keep]
  | key k =>
    obtain ⟨b', n, he, hg'⟩ := hs.writeEscaped st.buf.buf k hg
    refine ⟨⟨⟨b', st.buf.calls⟩, st.emitted⟩, n != 0, ?_, hg', by simp [itemValues]⟩
    simp [StackJson.runItem, Emission.writeEscaped, Tally.writeEscaped_eq, he, Tally.keep]
  | value n =>
    obtain ⟨m, hm, rfl⟩ := List.mem_map.mp (hit n (by simp [itemValues]))
    obtain ⟨st', he, hg'⟩ := hs.values m hm ⟨st.buf.buf, st.emitted⟩ hg
    refine ⟨⟨⟨st'.buf, st.buf.calls ++ [m.id]⟩, st'.emitted⟩, true, ?_, hg', ?_⟩
    · simp [StackJson.runItem, callEmitValue, NodeBase.tallied, he]
    · simp [itemValues, NodeBase.tallied]

/-- A run of items calls `emit_value` of the values among them, in order, up to the point where a
write is refused. -/
theorem Sound.runItems (hs : Sound good nodes) (its : List (Item (NodeBase (Tally σ))))
    (hits : ∀ n ∈ itemValues its, n ∈ nodes.map NodeBase.tallied) (st : Emission (Tally σ))
    (hg : good st.buf.buf) :
    ∃ st' ok vs, runItems its st = some (st', ok) ∧ good st'.buf.buf ∧
      st'.buf.calls = st.buf.calls ++ vs.map (fun n => n.id) ∧ vs <+: itemValues its ∧
      (ok = true → vs = itemValues its) := by
  induction its generalizing st with
  | nil => exact ⟨st, true, [], rfl, hg, by simp, List.prefix_rfl, fun _ => rfl⟩
  | cons it its ih =>
    have hsplit : itemValues (it :: its) = itemValues [it] ++ itemValues its :=
      itemValues_append [it] its
    rw [hsplit] at hits ⊢
    obtain ⟨st1, ok1, h1, hg1, hc1⟩ :=
      hs.runItem it (fun n hn => hits n (List.mem_append_left _ hn)) st hg
    cases ok1 with
    | false =>
      refine ⟨st1, false, itemValues [it], ?_, hg1, hc1, List.prefix_append _ _, nofun⟩
      rw [StackJson.runItems, h1]
      rfl
    | true =>
      obtain ⟨st2, ok2, vs, h2, hg2, hc2, hp, hall⟩ :=
        ih (fun n hn => hits n (List.mem_append_right _ hn)) st1 hg1
      refine ⟨st2, ok2, itemValues [it] ++ vs, ?_, hg2, ?_, ?_, fun hok => by rw [hall hok]⟩
      · rw [StackJson.runItems, h1]
        exact h2
      · rw [hc2, hc1, List.map_append, List.append_assoc]
      · exact (List.prefix_append_right_inj _).mpr hp

omit [Buffer σ] in
theorem tallied_flags (hf : FlagFrame nodes)
    (hdistinct : (nodes.map fun n => n.id).Nodup) :
    FlagFrame (nodes.map NodeBase.tallied) := by
  intro n hn st st' he m hm
  obtain ⟨p, hp, rfl⟩ := List.mem_map.mp hn
  obtain ⟨q, hq, rfl⟩ := List.mem_map.mp hm
  obtain ⟨st1, h1, rfl⟩ := Option.map_eq_some_iff.mp he
  have hone := hf p hp _ st1 h1 q hq
  have hsame : q.tallied = p.tallied ↔ q = p := by
    constructor
    · intro h
      have hid : q.id = p.id := congrArg (fun n : NodeBase (Tally σ) => n.id) h
      exact List.inj_on_of_nodup_map hdistinct hq hp hid
    · intro h
      rw [h]
  rw [hsame]
  exact hone

/-- The nodes of a proper order are emitted without an access out of range, each at most once, and
exactly once when the emission reports success. -/
theorem emitJsonNodes_calls (hs : Sound good nodes) (hf : FlagFrame nodes)
    (hdistinct : (nodes.map fun n => n.id).Nodup) (hpaths : ∀ n ∈ nodes, n.path ≠ [])
    (horder : nodes.Pairwise fun m n =>
      m.omitted = false → n.omitted = false → n.path <+: m.path → n.path = m.path)
    (st : Emission (Tally σ)) (hg : good st.buf.buf) :
    ∃ st' k vs, emitJsonNodes (nodes.map NodeBase.tallied) st = some (st', k) ∧
      st'.buf.calls = st.buf.calls ++ vs ∧
      List.Subperm vs ((nodes.filter fun n => !n.omitted).map fun n => n.id) ∧
      (k ≠ 0 → vs.Perm ((nodes.filter fun n => !n.omitted).map fun n => n.id)) := by
  by_cases hne : nodes = []
  · subst hne
    obtain ⟨b', n, he, -⟩ := hs.write st.buf.buf [ch '{', ch '}'] hg
    refine ⟨⟨⟨b', st.buf.calls⟩, st.emitted⟩, n, [], ?_, by simp, List.nil_subperm,
      fun _ => List.Perm.refl _⟩
    simp [emitJsonNodes, Tally.write_eq, he, Tally.keep]
  · have hw : Emittable (nodes.map NodeBase.tallied) := by
      refine ⟨tallied_flags hf hdistinct, ?_, ?_, ?_⟩
      · refine List.Nodup.of_map (fun n : NodeBase (Tally σ) => n.id) ?_
        rw [List.map_map]
        exact hdistinct
      · intro n hn
        obtain ⟨p, hp, rfl⟩ := List.mem_map.mp hn
        exact hpaths p hp
      · rw [List.pairwise_map]
        exact horder
    obtain ⟨st0, hbuf, -, hemit⟩ :=
      emitJsonNodes_eq (nodes.map NodeBase.tallied) hw (by simpa using hne) st
    have hentries : ∀ e ∈ shownNodes (nodes.map NodeBase.tallied), e.1 ≠ [] := by
      intro e he
      simp only [shownNodes, List.mem_map, List.mem_filter] at he
      obtain ⟨n, ⟨⟨p, hp, rfl⟩, -⟩, rfl⟩ := he
      exact hpaths p hp
    have hvalues := itemValues_treeItems (.node (KeyTree.build (shownNodes (nodes.map
      NodeBase.tallied))))
    have hperm := KeyTree.leavesOf_build _ hentries
    have hshown : (shownNodes (nodes.map NodeBase.tallied)).map Prod.snd =
        (nodes.filter fun n => !n.omitted).map NodeBase.tallied := by
      simp only [shownNodes, List.filter_map, List.map_map]
      rfl
    rw [hshown] at hperm
    rw [KeyTree.leaves] at hvalues
    rw [← hvalues] at hperm
    have hids := hperm.map fun n => n.id
    rw [List.map_map] at hids
    obtain ⟨st', ok, vs, hrun, -, hcalls, hpre, hall⟩ := hs.runItems _ (fun n hn => by
      obtain ⟨p, hp, rfl⟩ := List.mem_map.mp (hperm.subset hn)
      exact List.mem_map.mpr ⟨p, (List.mem_filter.mp hp).1, rfl⟩) st0 (by rw [hbuf]; exact hg)
    refine ⟨st', _, vs.map fun n => n.id, by rw [hemit, hrun]; rfl, by rw [hcalls, hbuf], ?_, ?_⟩
    · exact (hpre.sublist.map _).subperm.trans hids.subperm
    · intro hk
      cases ok with
      | false => exact absurd rfl hk
      | true =>
        rw [hall rfl]
        exact hids

end calls

end Espbase.StackJson
