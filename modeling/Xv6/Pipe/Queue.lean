import Xv6.Lib.Fifo
import Xv6.Pipe.Wakeup

/-!
# The ring buffer of a pipe is a queue

What a step can do to the ring is put one byte in while it is not full, or take one out while it is not
empty, and this is all that the queue of `Fifo.Rep` needs.  Beside it every process in `pipewrite` has
stored exactly the bytes before its index `i`, also while it sleeps in the middle of the call.
-/

namespace Xv6.Pipe

open Runs Machine

variable {nproc : ℕ} {s t : Machine} {p : ℕ}

/-! ## The ring -/

/-- What a step does to the ring. -/
inductive RingStep (s t : Machine) : Prop
  | same (data : t.pipe.data = s.pipe.data) (nread : t.pipe.nread = s.pipe.nread)
      (nwrite : t.pipe.nwrite = s.pipe.nwrite) (stored : t.stored = s.stored) (taken : t.taken = s.taken)
  | put (ch : BitVec 8) (hfull : ¬ s.pipe.full) (pipe : t.pipe = s.pipe.put ch)
      (stored : t.stored = s.stored ++ [ch]) (taken : t.taken = s.taken)
  | get (hne : s.pipe.nread ≠ s.pipe.nwrite) (pipe : t.pipe = s.pipe.get.2)
      (stored : t.stored = s.stored) (taken : t.taken = s.taken ++ [s.pipe.get.1])

theorem RingStep.writeByte (w : Write) (i : ℕ) : RingStep s (writeByte (s.releaseProc p) p w i) := by
  unfold Pipe.writeByte
  split_ifs with hfull
  · exact .same rfl rfl rfl rfl rfl
  · split
    · exact .same rfl rfl rfl rfl rfl
    · exact .put _ hfull rfl rfl rfl

theorem RingStep.readByte (r : Read) (i : ℕ) : RingStep s (readByte s p r i) := by
  unfold Pipe.readByte
  split_ifs with hne
  · exact .get hne.2 rfl rfl rfl
  · exact .get hne.2 rfl rfl rfl
  · exact .same rfl rfl rfl rfl rfl

/-! ## The bytes of a writer -/

/-- The call of `pipewrite` that the process is in, and its index. -/
def Pc.writing : Pc → Option (Write × ℕ)
  | .writeLoop w i _ | .writeKilled w i _ _ | .wakeup _ _ (.sleep w i)
  | .wakeupUnlock _ _ (.sleep w i) | .sleepLock _ (.write w i) | .sleepSched _ (.write w i)
  | .sleepWake (.write w i) | .sleepRelock (.write w i) => some (w, i)
  | _ => none

/-- What a step does to the bytes that a process has sent. -/
inductive Sends (a b : Proc) : Prop
  | stays (pc : b.pc.writing = a.pc.writing) (sent : b.sent = a.sent)
  | starts (w : Write) (pc : b.pc.writing = some (w, 0)) (sent : b.sent = [])
  | stores (w : Write) (i : ℕ) (ch : BitVec 8) (pc : a.pc.writing = some (w, i)) (src : w.src i = some ch)
      (pc' : b.pc.writing = some (w, i + 1)) (sent : b.sent = a.sent ++ [ch])
  | leaves (pc : b.pc.writing = none)

theorem Sends.setProc {f : Proc → Proc} {i : ℕ} (h : ∀ q, Sends (s.proc q) (t.proc q))
    (hf : Sends (s.proc i) (f (t.proc i))) (q : ℕ) : Sends (s.proc q) ((t.setProc i f).proc q) := by
  by_cases e : q = i
  · subst e
    rwa [setProc_self]
  · rw [setProc_ne e]
    exact h q

theorem Sends.goto {b : Pc} (h : ∀ q, Sends (s.proc q) (t.proc q)) (hsent : (t.proc p).sent = (s.proc p).sent)
    (hb : b.writing = (s.proc p).pc.writing ∨ b.writing = none) (q : ℕ) :
    Sends (s.proc q) ((t.goto p b).proc q) :=
  Sends.setProc h (hb.elim (fun e => .stays e hsent) fun e => .leaves e) q

theorem Sends.refl (s : Machine) (q : ℕ) : Sends (s.proc q) (s.proc q) := .stays rfl rfl

/-- Whatever else changes in a process, its call does not. -/
theorem Sends.other {f : Proc → Proc} {i : ℕ} (hpc : (f (s.proc i)).pc = (s.proc i).pc)
    (hsent : (f (s.proc i)).sent = (s.proc i).sent) (q : ℕ) :
    Sends (s.proc q) ((s.setProc i f).proc q) :=
  Sends.setProc (Sends.refl s) (.stays (by rw [hpc]) hsent) q

theorem Proc.wake_sent (a : Proc) (chan : Chan) : (a.wake chan).sent = a.sent := by
  unfold Proc.wake
  split_ifs <;> rfl

theorem Proc.kill_sent (a : Proc) : a.kill.sent = a.sent := by
  unfold Proc.kill
  split_ifs <;> rfl

theorem sends_writeByte {w : Write} {i : ℕ} {fresh killed : Bool}
    (hpc : (s.proc p).pc = .writeKilled w i fresh killed) (q : ℕ) :
    Sends (s.proc q) ((writeByte (s.releaseProc p) p w i).proc q) := by
  have hrel : ∀ q, Sends (s.proc q) ((s.releaseProc p).proc q) := Sends.other rfl rfl
  have hsent : ((s.releaseProc p).proc p).sent = (s.proc p).sent := by simp [releaseProc]
  unfold writeByte
  split_ifs
  · exact Sends.goto hrel hsent (.inl (by rw [hpc]; rfl)) q
  · split
    case h_1 => exact Sends.goto hrel hsent (.inr rfl) q
    case h_2 ch hch =>
      refine Sends.setProc ?_ ?_ q
      · exact hrel
      · exact .stores w i ch (by rw [hpc]; rfl) hch rfl (by rw [← hsent])

/-- A step that at most takes or releases the lock of the pipe. -/
theorem effect_goto {a b : Pc} {l : Option ℕ} (hpc : (s.proc p).pc = a)
    (hb : b.writing = a.writing ∨ b.writing = none := by first | exact .inr rfl | exact .inl rfl) :
    RingStep s ({ s with lock := l }.goto p b) ∧
      ∀ q, Sends (s.proc q) (({ s with lock := l }.goto p b).proc q) :=
  ⟨.same rfl rfl rfl rfl rfl, Sends.goto (t := { s with lock := l }) (Sends.refl s) rfl (hpc ▸ hb)⟩

/-- A step that takes or releases the lock of process `j`. -/
theorem effect_lock {a b : Pc} {j : ℕ} {l : Option Holder} (hpc : (s.proc p).pc = a)
    (hb : b.writing = a.writing ∨ b.writing = none := by first | exact .inr rfl | exact .inl rfl) :
    RingStep s ((s.setProc j fun x => { x with lock := l }).goto p b) ∧
      ∀ q, Sends (s.proc q) (((s.setProc j fun x => { x with lock := l }).goto p b).proc q) := by
  refine ⟨.same rfl rfl rfl rfl rfl, Sends.goto (Sends.other rfl rfl) ?_ (hpc ▸ hb)⟩
  by_cases e : p = j
  · subst e
    rw [setProc_self]
  · rw [setProc_ne e]

/-- What a step of a process does. -/
theorem go_effect (hgo : go nproc s p = some t) :
    RingStep s t ∧ ∀ q, Sends (s.proc q) (t.proc q) := by
  cases hpc : (s.proc p).pc with
  | idle => simp [go, hpc] at hgo
  | writeLock w =>
    simp only [go, hpc] at hgo
    obtain ⟨-, rfl⟩ := acquirePipe_map hgo
    exact ⟨.same rfl rfl rfl rfl rfl, Sends.setProc (Sends.refl s) (.starts w rfl rfl)⟩
  | writeLoop w i fresh =>
    simp only [go, hpc] at hgo
    split_ifs at hgo
    · cases hgo
      exact effect_goto hpc
    · obtain rfl := acquireProc_map hgo
      exact effect_lock hpc
    · cases hgo
      exact effect_goto hpc
  | writeKilled w i fresh killed =>
    simp only [go, hpc] at hgo
    split_ifs at hgo
    · cases hgo
      exact effect_lock hpc
    · cases hgo
      exact ⟨.writeByte w i, sends_writeByte hpc⟩
  | readLock r =>
    simp only [go, hpc] at hgo
    obtain ⟨-, rfl⟩ := acquirePipe_map hgo
    exact effect_goto hpc
  | readLoop r =>
    simp only [go, hpc] at hgo
    split_ifs at hgo
    · obtain rfl := acquireProc_map hgo
      exact effect_lock hpc
    · cases hgo
      exact effect_goto hpc
  | readKilled r killed =>
    simp only [go, hpc] at hgo
    cases hgo
    exact effect_lock hpc (.inr (by cases killed <;> rfl))
  | readCopy r i =>
    simp only [go, hpc] at hgo
    cases hgo
    refine ⟨.readByte r i, ?_⟩
    unfold readByte
    split_ifs <;> exact Sends.goto (Sends.refl s) rfl (.inr rfl)
  | closeLock writable =>
    simp only [go, hpc] at hgo
    obtain ⟨-, rfl⟩ := acquirePipe_map hgo
    cases writable <;> exact ⟨.same rfl rfl rfl rfl rfl, Sends.goto (Sends.refl s) rfl (.inr rfl)⟩
  | unlock ret =>
    simp only [go, hpc] at hgo
    cases hgo
    exact effect_goto hpc
  | wakeup chan j next =>
    simp only [go, hpc] at hgo
    split_ifs at hgo with _ hj
    · cases hgo
      exact effect_goto hpc (.inl (by cases next <;> rfl))
    · obtain rfl := acquireProc_map hgo
      refine ⟨.same rfl rfl rfl rfl rfl, Sends.goto (Sends.setProc (Sends.other rfl rfl) ?_) ?_ (.inl ?_)⟩
      · rw [setProc_self]
        exact .stays (by rw [(Proc.wake_pc _ _).1]) (Proc.wake_sent _ _)
      · rw [setProc_ne (Ne.symm hj), setProc_ne (Ne.symm hj)]
      · rw [hpc]
        cases next <;> rfl
    · cases next with
      | sleep w i =>
        cases hgo
        exact effect_goto hpc
      | unlock ret =>
        cases hgo
        exact effect_goto hpc
  | wakeupUnlock chan j next =>
    simp only [go, hpc] at hgo
    cases hgo
    exact effect_lock hpc (.inl (by cases next <;> rfl))
  | sleepLock chan back =>
    simp only [go, hpc] at hgo
    obtain rfl := acquireProc_map hgo
    exact effect_lock hpc (.inl (by cases back <;> rfl))
  | sleepSched chan back | sleepWake back =>
    simp only [go, hpc] at hgo
    cases hgo
    exact ⟨.same rfl rfl rfl rfl rfl,
      Sends.setProc (Sends.refl s) (.stays (by rw [hpc]; cases back <;> rfl) rfl)⟩
  | sleepRelock back =>
    simp only [go, hpc] at hgo
    obtain ⟨-, rfl⟩ := acquirePipe_map hgo
    cases back <;> exact effect_goto hpc
  | kill target =>
    simp only [go, hpc] at hgo
    obtain rfl := acquireProc_map hgo
    refine ⟨.same rfl rfl rfl rfl rfl, Sends.setProc (Sends.setProc (Sends.other rfl rfl) ?_) (.leaves rfl)⟩
    rw [setProc_self]
    exact .stays (by rw [(Proc.kill_pc _).1]) (Proc.kill_sent _)
  | killUnlock target =>
    simp only [go, hpc] at hgo
    cases hgo
    exact effect_lock hpc

theorem step_effect {e : Event} (hstep : step nproc s e = some t) :
    RingStep s t ∧ ∀ q, Sends (s.proc q) (t.proc q) := by
  cases e with
  | call p c =>
    simp only [step] at hstep
    split at hstep
    case h_2 => cases hstep
    case h_1 =>
    split_ifs at hstep
    cases hstep
    exact ⟨.same rfl rfl rfl rfl rfl, Sends.setProc (Sends.refl s) (.leaves (by cases c <;> rfl))⟩
  | go p =>
    simp only [step] at hstep
    split_ifs at hstep
    exact go_effect hstep
  | switched p | schedule p =>
    simp only [step] at hstep
    split_ifs at hstep
    cases hstep
    exact ⟨.same rfl rfl rfl rfl rfl, Sends.other rfl rfl⟩

/-! ## Runs -/

/-- The bytes `sent` are the first `i` bytes of the source. -/
def Sent (w : Write) (i : ℕ) (sent : List (BitVec 8)) : Prop :=
  sent.length = i ∧ ∀ k < i, w.src k = sent[k]?

theorem Sent.concat {w : Write} {i : ℕ} {sent : List (BitVec 8)} {ch : BitVec 8} (h : Sent w i sent)
    (hch : w.src i = some ch) : Sent w (i + 1) (sent ++ [ch]) := by
  obtain ⟨rfl, hk⟩ := h
  refine ⟨by simp, fun k hlt => ?_⟩
  by_cases e : k = sent.length
  · rw [e, hch, List.getElem?_concat_length]
  · rw [List.getElem?_append_left (by omega)]
    exact hk k (by omega)

/-- The ring holds what was stored and not yet taken, and every writer is as far as its index says. -/
structure Queued (s : Machine) : Prop where
  ring : Fifo.Rep PIPESIZE 32 s.pipe.data s.pipe.nread s.pipe.nwrite s.stored s.taken
  sent : ∀ p w i, (s.proc p).pc.writing = some (w, i) → Sent w i (s.proc p).sent

theorem ring_step (h : Fifo.Rep PIPESIZE 32 s.pipe.data s.pipe.nread s.pipe.nwrite s.stored s.taken)
    (ht : RingStep s t) :
    Fifo.Rep PIPESIZE 32 t.pipe.data t.pipe.nread t.pipe.nwrite t.stored t.taken := by
  cases ht with
  | same data nread nwrite stored taken => rwa [data, nread, nwrite, stored, taken]
  | put ch hfull pipe stored taken =>
    rw [pipe, stored, taken]
    exact h.push (by decide) (fun e => hfull ((h.full_iff (by decide)).2 e)) ch
  | get hne pipe stored taken =>
    rw [pipe, stored, taken]
    exact h.pop (by decide) fun e => hne ((h.empty_iff (by decide)).2 e)

theorem queued_step {e : Event} (h : Queued s) (hstep : step nproc s e = some t) : Queued t := by
  obtain ⟨hring, hsends⟩ := step_effect hstep
  refine ⟨ring_step h.ring hring, fun p w i hp => ?_⟩
  cases hsends p with
  | stays pc sent =>
    rw [sent]
    exact h.sent p w i (pc ▸ hp)
  | starts w' pc sent =>
    rw [pc] at hp
    cases hp
    rw [sent]
    exact ⟨rfl, fun k hk => absurd hk (Nat.not_lt_zero k)⟩
  | stores w' i' ch pc src pc' sent =>
    rw [pc'] at hp
    cases hp
    rw [sent]
    exact (h.sent p w i' pc).concat src
  | leaves pc =>
    rw [pc] at hp
    cases hp

theorem queued_initial (h : s.Initial) : Queued s := by
  obtain ⟨hr, hw, -, -, -, hstored, htaken, hproc⟩ := h
  refine ⟨?_, fun p w i hp => ?_⟩
  · rw [hr, hw, hstored, htaken]
    exact Fifo.Rep.empty _ _ _
  · rw [hproc p] at hp
    cases hp

/-- Process 1 writes two bytes, and process 0 has read the first. -/
def firstByte : List Event :=
  [.call 1 (.write ⟨fun k => some (BitVec.ofNat 8 (k + 7)), 2⟩), .go 1, .go 1, .go 1, .go 1, .go 1, .go 1,
    .go 1, .go 1, .go 1, .go 1, .go 1, .call 0 (.read ⟨fun _ => true, 1⟩), .go 0, .go 0, .go 0]

end Xv6.Pipe
