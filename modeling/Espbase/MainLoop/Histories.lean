import Espbase.Lib.Fifo
import Espbase.MainLoop.Delivery

namespace Espbase.MainLoop

open Espbase.Lib

/-- What became of the commands, wherever they came from. -/
def Delivered.history (d : Delivered) : Fifo AppCommand :=
  ⟨d.delivery.entered.map Prod.snd, d.delivery.lost.map Prod.snd, d.delivery.executed⟩

section device
variable (capacity : Nat) (rate : UInt32)

/-- Each step of the device's loop is one of a bounded queue, or none. -/
theorem delivered_seen (d d' : Delivered) (hd : Delivering capacity d) (l : Label)
    (h : d.next capacity rate l = some d') :
    d'.history = d.history ∨ ∃ e, d.history.next capacity e = some d'.history := by
  obtain ⟨t, ht, rfl⟩ := Option.map_eq_some_iff.mp h
  have hfifo : d.history.entered = d.history.taken ++ d.traced.state.loop.queue := hd.fifo
  cases ho : d.traced.offered l with
  | some e =>
    right
    refine ⟨.offer e.2, ?_⟩
    rw [Fifo.next_offer capacity _ _ hfifo]
    simp only [Delivered.history, Delivery.next, ho]
    split_ifs <;> simp
  | none =>
    by_cases hl : l = .receive
    · subst hl
      right
      refine ⟨.take, ?_⟩
      obtain ⟨s, hs, rfl⟩ := Option.map_eq_some_iff.mp ht
      obtain ⟨cmd, queue, hq, -⟩ := State.next_receive capacity rate _ s hs
      rw [Fifo.next_take capacity _ _ hfifo]
      simp [Delivered.history, Delivery.next, ho, hq]
    · left
      simp only [Delivered.history, Delivery.next, ho, if_neg hl]

/-- The device's loop can take each step of a bounded queue. -/
theorem delivered_shown (d : Delivered) (hd : Delivering capacity d) (e : Fifo.Event AppCommand)
    (r : Fifo AppCommand) (h : d.history.next capacity e = some r) :
    ∃ d', d.next capacity rate (match e with | .offer cmd => .push cmd | .take => .receive) = some d' ∧
      d'.history = r := by
  have hfifo : d.history.entered = d.history.taken ++ d.traced.state.loop.queue := hd.fifo
  cases e with
  | offer cmd =>
    rw [Fifo.next_offer capacity _ _ hfifo] at h
    refine ⟨_, rfl, ?_⟩
    have hoffered : d.traced.offered (.push cmd) = some (.push, cmd) := rfl
    simp only [Delivered.history, Delivery.next, hoffered]
    split_ifs at h with hroom
    · rw [if_pos hroom, ← Option.some.inj h]
      simp [Delivered.history]
    · rw [if_neg hroom, ← Option.some.inj h]
      simp [Delivered.history]
  | take =>
    rw [Fifo.next_take capacity _ _ hfifo] at h
    cases hq : d.traced.state.loop.queue with
    | nil =>
      rw [hq] at h
      cases h
    | cons cmd queue =>
      rw [hq] at h
      refine ⟨_, by simp [Delivered.next, Traced.next, State.next, hq]; rfl, ?_⟩
      rw [← Option.some.inj h]
      simp [Delivered.history, Delivery.next, Traced.offered, hq]

/-- The histories of the device's loop are those of a bounded queue. -/
theorem history_iff (memory : List AppCommand) (r : Fifo AppCommand) :
    (∃ d, Steps (Delivered.next capacity rate) (fun _ _ => True) (.start memory) d ∧ d.history = r) ↔
      Steps (Fifo.next capacity) (fun _ _ => True) .empty r := by
  constructor
  · rintro ⟨d, run, rfl⟩
    exact (run.seen _ _ (Fifo.next capacity) Delivered.history (Delivering capacity)
      (fun d l d' hd _ hn => ⟨delivering_next capacity rate d hd l d' hn, delivered_seen capacity rate d d' hd l hn⟩)
      _ _ (start_delivering capacity memory)).2
  · intro run
    obtain ⟨d, hrun, -, hd⟩ := run.shown (Delivered.next capacity rate) (fun _ _ => True) (Fifo.next capacity)
      Delivered.history (Delivering capacity) (fun d e r hd he => by
        obtain ⟨d', hn, hr⟩ := delivered_shown capacity rate d hd e r he
        exact ⟨d', .snoc d d' _ .refl trivial hn, delivering_next capacity rate d hd _ d' hn, hr⟩)
      (.start memory) r (start_delivering capacity memory)
    exact ⟨d, hrun, hd⟩

end device

end Espbase.MainLoop
