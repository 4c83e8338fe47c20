import FostWright.Watchdog
import Mathlib.Tactic.Ring

/-!
# The watchdogs kill a blocked pool and no other

A `dog` always waits for its heartbeat or has it queued, and its killer waits until two seconds after the last `beat` or is due. So a killer
is due only after two seconds without a `beat`; and when they are over and the pool that watches goes on, nothing but the end is left.
-/

namespace FostWright

open Lib

/-! ## One dog -/

namespace Dog

/-- What holds of a `dog` at a time. -/
structure Sound (d : Dog) (now : Nat) : Prop where
  idle : d.beatAt = .none → d.heartbeat = .idle ∧ d.killer = .idle ∧ d.beats = 0
  beats : ∀ beat ∈ d.beatAt, d.addedAt + d.beats * second ≤ beat ∧ beat ≤ now
  heartbeat : ∀ beat ∈ d.beatAt, d.heartbeat.pending = some (beat + second) ∧ d.heartbeat.queued = 0 ∨
    d.heartbeat.pending = .none ∧ d.heartbeat.queued = 1 ∧ beat + second ≤ now
  killer : ∀ beat ∈ d.beatAt, d.killer.pending = some (beat + 2 * second) ∨ d.killer.pending = .none ∧ 0 < d.killer.queued

theorem sound_none (now : Nat) : Dog.none.Sound now :=
  ⟨fun _ => ⟨rfl, rfl, rfl⟩, nofun, nofun, nofun⟩

theorem Sound.later {d : Dog} {now : Nat} (h : d.Sound now) (k : Nat) : d.Sound (now + k) := by
  refine ⟨h.idle, ?_, ?_, h.killer⟩
  · intro beat hbeat
    obtain ⟨hcount, hle⟩ := h.beats beat hbeat
    exact ⟨hcount, hle.trans (Nat.le_add_right _ _)⟩
  · intro beat hbeat
    exact (h.heartbeat beat hbeat).imp_right (And.imp_right (And.imp_right (fun hle => hle.trans (Nat.le_add_right _ _))))

/-- After a `beat` both waits are new. -/
theorem sound_beat {d : Dog} {now : Nat} (hcount : d.addedAt + d.beats * second ≤ now) (hqueued : d.heartbeat.queued = 0) :
    (d.beat now).Sound now := by
  refine ⟨nofun, ?_, ?_, ?_⟩ <;> rintro beat ⟨⟩
  · exact ⟨hcount, le_rfl⟩
  · exact Or.inl ⟨rfl, hqueued⟩
  · exact Or.inl rfl

/-- A `dog` that is there has been added. -/
theorem Sound.added {d : Dog} {now : Nat} (h : d.Sound now) (hthere : d.heartbeat ≠ .idle ∨ d.killer ≠ .idle) :
    ∃ beat, d.beatAt = some beat := by
  rw [← Option.ne_none_iff_exists']
  intro hnone
  obtain ⟨hheartbeat, hkiller, -⟩ := h.idle hnone
  exact hthere.elim (fun hne => hne hheartbeat) (fun hne => hne hkiller)

theorem ne_idle_of_expire {t t' : Timer} {now : Nat} (h : t.expire now = some t') : t ≠ .idle := by
  rintro rfl
  cases h

theorem ne_idle_of_run {t t' : Timer} (h : t.run = some t') : t ≠ .idle := by
  rintro rfl
  cases h

theorem Sound.due {d : Dog} {now : Nat} {timer : Timer} (h : d.Sound now) (hexpired : d.heartbeat.expire now = some timer) :
    ({ d with heartbeat := timer } : Dog).Sound now := by
  obtain ⟨expiry, hle, hpending, rfl⟩ := Timer.expire_eq_some hexpired
  refine ⟨?_, h.beats, ?_, h.killer⟩
  · intro hnone
    exact absurd (h.idle hnone).1 (ne_idle_of_expire hexpired)
  · intro beat hbeat
    rcases h.heartbeat beat hbeat with ⟨hsome, hqueued⟩ | ⟨hnone, -⟩
    · obtain rfl := Option.some.inj (hpending.symm.trans hsome)
      exact Or.inr ⟨rfl, congrArg (· + 1) hqueued, hle⟩
    · rw [hnone] at hpending
      cases hpending

/-- The handler of the heartbeat beats again, a second or more after the last time. -/
theorem Sound.heard {d : Dog} {now : Nat} {timer : Timer} (h : d.Sound now) (hhandled : d.heartbeat.run = some timer) :
    (d.heard timer now).Sound now := by
  obtain ⟨beat, hbeat⟩ := h.added (Or.inl (ne_idle_of_run hhandled))
  obtain ⟨hqueued, -⟩ := Timer.run_eq_some hhandled
  obtain ⟨hcount, -⟩ := h.beats beat hbeat
  rcases h.heartbeat beat hbeat with ⟨-, hzero⟩ | ⟨-, hone, hle⟩
  · omega
  · refine sound_beat ?_ (by simp only; omega)
    simp only [Nat.add_mul]
    omega

theorem Sound.late {d : Dog} {now : Nat} {timer : Timer} (h : d.Sound now) (hexpired : d.killer.expire now = some timer) :
    ({ d with killer := timer } : Dog).Sound now := by
  obtain ⟨-, -, -, rfl⟩ := Timer.expire_eq_some hexpired
  refine ⟨?_, h.beats, h.heartbeat, fun _ _ => Or.inr ⟨rfl, Nat.succ_pos _⟩⟩
  intro hnone
  exact absurd (h.idle hnone).2.1 (ne_idle_of_expire hexpired)

end Dog

namespace Watchdogs

/-- What holds of both dogs until the process exits. -/
def Sound (s : Watchdogs) : Prop := s.exited = false → ∀ p, (s.dog p).Sound s.now

/-- A `dog` that becomes another. -/
theorem sound_put {s : Watchdogs} (h : ∀ p, (s.dog p).Sound s.now) {p : Pool} {d : Dog} (hd : d.Sound s.now) : (s.put p d).Sound := by
  intro _ q
  by_cases hq : q = p
  · rw [hq, put_self]
    exact hd
  · rw [put_other s hq]
    exact h q

theorem Sound.step {s s' : Watchdogs} {a : Action} (h : s.Sound) (hs : s.step a = some s') : s'.Sound := by
  obtain ⟨halive, hs⟩ := steps_of_step hs
  have hdogs := h halive
  cases hs with
  | @add p hnew =>
    obtain ⟨hheartbeat, -, hbeats⟩ := (hdogs p).idle hnew
    refine sound_put hdogs (Dog.sound_beat ?_ ?_)
    · simp only [hbeats, Nat.zero_mul, Nat.add_zero, le_refl]
    · simp only [hheartbeat, Timer.idle]
  | tick => exact fun _ p => (hdogs p).later _
  | block => exact fun _ => hdogs
  | unblock => exact fun _ => hdogs
  | @due p _ _ hexpired => exact sound_put hdogs ((hdogs p).due hexpired)
  | @heartbeat p _ _ hhandled => exact sound_put hdogs ((hdogs p).heard hhandled)
  | @late p _ _ hexpired => exact sound_put hdogs ((hdogs p).late hexpired)
  | kill => exact fun hexited => by cases hexited

theorem sound_of_reach {ok : Watchdogs → Action → Prop} {s : Watchdogs} (h : system.Reach ok s) : s.Sound :=
  h.invariant (I := Sound) (fun _ _ => Dog.sound_none 0) (fun _ _ _ hi _ hs => hi.step hs)

/-! ## No false alarm -/

/-- The last `beat` was less than two seconds ago, and so was each one before it then; no killer is due. -/
structure Prompt (s : Watchdogs) : Prop where
  alive : s.exited = false
  killer : ∀ p, (s.dog p).killer.queued = 0
  recent : ∀ p, ∀ beat ∈ (s.dog p).beatAt, s.now < beat + 2 * second
  beats : ∀ p, ∀ beat ∈ (s.dog p).beatAt, beat ≤ (s.dog p).addedAt + (s.dog p).beats * (2 * second)

/-- A `dog` that becomes another. -/
theorem Prompt.put {s : Watchdogs} (h : s.Prompt) {p : Pool} {d : Dog} (hqueued : d.killer.queued = 0)
    (hrecent : ∀ beat ∈ d.beatAt, s.now < beat + 2 * second) (hbeats : ∀ beat ∈ d.beatAt, beat ≤ d.addedAt + d.beats * (2 * second)) :
    (s.put p d).Prompt := by
  refine ⟨h.alive, ?_, ?_, ?_⟩ <;> intro q <;> by_cases hq : q = p
  · rw [hq, put_self]
    exact hqueued
  · rw [put_other s hq]
    exact h.killer q
  · rw [hq, put_self]
    exact hrecent
  · rw [put_other s hq]
    exact h.recent q
  · rw [hq, put_self]
    exact hbeats
  · rw [put_other s hq]
    exact h.beats q

theorem second_pos : 0 < second := by decide

theorem Prompt.step {s s' : Watchdogs} {a : Action} (h : s.Prompt) (hsound : s.Sound) (htimely : s.Timely a) (hs : s.step a = some s') :
    s'.Prompt := by
  obtain ⟨halive, hs⟩ := steps_of_step hs
  have hdogs := hsound halive
  have hpos := second_pos
  cases hs with
  | @add p =>
    refine h.put (h.killer p) ?_ ?_ <;> rintro beat ⟨⟩
    · omega
    · exact Nat.le_add_right _ _
  | tick => exact ⟨h.alive, h.killer, htimely, h.beats⟩
  | block => exact ⟨h.alive, h.killer, h.recent, h.beats⟩
  | unblock => exact ⟨h.alive, h.killer, h.recent, h.beats⟩
  | @due p => exact h.put (h.killer p) (h.recent p) (h.beats p)
  | @heartbeat p timer _ hhandled =>
    obtain ⟨beat, hbeat⟩ := (hdogs p).added (Or.inl (Dog.ne_idle_of_run hhandled))
    have hrecent := h.recent p beat hbeat
    have hbeats := h.beats p beat hbeat
    refine h.put (h.killer p) ?_ ?_ <;> rintro _ ⟨⟩
    · omega
    · simp only [Dog.heard, Dog.beat, Nat.add_mul]
      omega
  | @late p timer _ hexpired =>
    -- the wait of the killer is over two seconds after the last `beat`
    obtain ⟨beat, hbeat⟩ := (hdogs p).added (Or.inr (Dog.ne_idle_of_expire hexpired))
    obtain ⟨expiry, hle, hpending, -⟩ := Timer.expire_eq_some hexpired
    have hrecent := h.recent p beat hbeat
    rcases (hdogs p).killer beat hbeat with hsome | ⟨-, hqueued⟩
    · obtain rfl := Option.some.inj (hpending.symm.trans hsome)
      omega
    · rw [h.killer p] at hqueued
      cases hqueued
  | @kill p timer _ hhandled =>
    have hqueued := (Timer.run_eq_some hhandled).1
    rw [h.killer p] at hqueued
    cases hqueued

/-- In every run in which no heartbeat is two seconds late, whichever pools block for a while, the watchdogs do not end the process; and
each has counted a heartbeat for every two seconds at least and for every second at most. -/
theorem no_false_alarm (s : Watchdogs) (h : system.Reach Timely s) :
    s.exited = false ∧ ∀ p beat, (s.dog p).beatAt = some beat →
      (s.dog p).addedAt + (s.dog p).beats * second ≤ s.now ∧ s.now < (s.dog p).addedAt + ((s.dog p).beats + 1) * (2 * second) := by
  have hprompt : s.Prompt := by
    refine h.invariant₂ (J := Sound) (I := Prompt) (fun _ hu => sound_of_reach hu) ⟨rfl, fun _ => rfl, fun _ => nofun, fun _ => nofun⟩ ?_
    exact fun _ _ _ hsound hi hok hs => hi.step hsound hok hs
  refine ⟨hprompt.alive, ?_⟩
  intro p beat hbeat
  obtain ⟨hcount, hle⟩ := (sound_of_reach h hprompt.alive p).beats beat hbeat
  have hrecent := hprompt.recent p beat hbeat
  have hbeats := hprompt.beats p beat hbeat
  refine ⟨hcount.trans hle, ?_⟩
  rw [Nat.add_mul]
  omega

/-- Both pools block for a second and a half, one after the other, and have beaten twice at the end. -/
theorem no_false_alarm_run :
    ∃ s : Watchdogs, s.now = 3500000 ∧ (s.dog .control).beats = 2 ∧ s.exited = false ∧
      s.now < (s.dog .control).addedAt + ((s.dog .control).beats + 1) * (2 * second) := by
  obtain ⟨s, hs, hp⟩ := System.reach_of_restrict_run (S := system) Timely
    [.add .auxilliary, .add .control, .block .control, .tick 1500000, .due .auxilliary, .heartbeat .auxilliary, .unblock .control,
      .due .control, .heartbeat .control, .block .auxilliary, .tick 1500000, .unblock .auxilliary, .due .auxilliary,
      .heartbeat .auxilliary, .due .control, .heartbeat .control, .tick 500000]
    (fun s => decide (s.now = 3500000) && decide ((s.dog .control).beats = 2) && decide ((s.dog .control).beatAt = some 3000000))
    (by decide)
  simp only [Bool.and_eq_true, decide_eq_true_eq] at hp
  obtain ⟨⟨hnow, hbeats⟩, hbeat⟩ := hp
  obtain ⟨halive, hcount⟩ := no_false_alarm s hs
  exact ⟨s, hnow, hbeats, halive, (hcount .control _ hbeat).2⟩

/-! ## Detection -/

/-- What stays while pool `p` is blocked and the other pool is not. -/
structure Blocked (p : Pool) (beat : Nat) (s : Watchdogs) : Prop where
  sound : s.Sound
  blocked : s.blocked p = true
  runs : s.blocked p.other = false
  beatAt : (s.dog p).beatAt = some beat

/-- A pool that is not blocked is the other one. -/
theorem Blocked.eq_other {p q : Pool} {beat : Nat} {s : Watchdogs} (h : s.Blocked p beat) (hq : s.blocked q = false) : q = p.other := by
  refine (p.eq_or_eq_other q).resolve_left ?_
  rintro rfl
  rw [h.blocked] at hq
  cases hq

/-- A pool that the other one watches over is the one that is blocked. -/
theorem Blocked.eq_self {p q : Pool} {beat : Nat} {s : Watchdogs} (h : s.Blocked p beat) (hq : s.blocked q.other = false) : q = p := by
  have hother := h.eq_other hq
  revert hother
  cases p <;> cases q <;> decide

/-- What goes on keeps the pool blocked, and takes something off. -/
theorem Blocked.step {p : Pool} {beat : Nat} {s s' : Watchdogs} {a : Action} (h : s.Blocked p beat) (ha : s.Watches p a)
    (hs : s.step a = some s') : s'.Blocked p beat ∧ s'.remaining p < s.remaining p ∧ s'.now ≤ max s.now (beat + 2 * second) := by
  have hsound := h.sound.step hs
  have hne := p.other_ne
  obtain ⟨-, hs⟩ := steps_of_step hs
  cases hs with
  | add => exact ha.elim
  | block => exact ha.elim
  | unblock => exact ha.elim
  | @tick d =>
    obtain ⟨hpos, hdeadline⟩ := ha
    have hle := hdeadline beat h.beatAt
    have hheartbeat := (s.dog p.other).heartbeat.ready_le s.now (s.now + d)
    have hkiller := (s.dog p).killer.ready_le s.now (s.now + d)
    refine ⟨⟨hsound, h.blocked, h.runs, h.beatAt⟩, ?_, hle.trans (le_max_right _ _)⟩
    simp only [remaining, h.beatAt, Option.getD_some]
    omega
  | @due q timer hruns hexpired =>
    obtain rfl := h.eq_other hruns
    have hready := Timer.ready_expire hexpired
    refine ⟨⟨hsound, h.blocked, h.runs, ?_⟩, ?_, le_max_left _ _⟩
    · rw [put_other s hne.symm]
      exact h.beatAt
    · simp only [remaining, put_self, put_other s hne.symm]
      exact Nat.add_lt_add_left (Nat.add_lt_add_right hready _) _
  | @heartbeat q timer hruns hhandled =>
    obtain rfl := h.eq_other hruns
    have hready := (timer.ready_wait (Nat.lt_add_of_pos_right second_pos)).trans_lt (Timer.ready_run s.now hhandled)
    refine ⟨⟨hsound, h.blocked, h.runs, ?_⟩, ?_, le_max_left _ _⟩
    · rw [put_other s hne.symm]
      exact h.beatAt
    · simp only [remaining, put_self, put_other s hne.symm]
      exact Nat.add_lt_add_left (Nat.add_lt_add_right hready _) _
  | @late q timer hruns hexpired =>
    obtain rfl := h.eq_self hruns
    have hready := Timer.ready_expire hexpired
    refine ⟨⟨hsound, h.blocked, h.runs, ?_⟩, ?_, le_max_left _ _⟩
    · rw [put_self]
      exact h.beatAt
    · simp only [remaining, put_self, put_other s hne]
      exact Nat.add_lt_add_left (Nat.add_lt_add_left hready _) _
  | @kill q timer hruns hhandled =>
    obtain rfl := h.eq_self hruns
    have hready := Timer.ready_run s.now hhandled
    refine ⟨⟨hsound, h.blocked, h.runs, ?_⟩, ?_, le_max_left _ _⟩
    · change ((s.put q _).dog q).beatAt = _
      rw [put_self]
      exact h.beatAt
    · change (s.put q _).remaining q < _
      simp only [remaining, put_self, put_other s hne]
      exact Nat.add_lt_add_left (Nat.add_lt_add_left hready _) _

/-- While pool `p` is blocked, nothing is left only when the process has exited. -/
theorem Blocked.exited {p : Pool} {beat : Nat} {s : Watchdogs} (h : s.Blocked p beat) (hstuck : system.Stuck (Watches p) s) :
    s.exited = true := by
  by_contra halive
  rw [Bool.not_eq_true] at halive
  have hdeadline : beat + 2 * second ≤ s.now := by
    by_contra hearly
    have hnone := hstuck (.tick 1) ⟨Nat.one_pos, fun b hb => ?_⟩
    · simp [system, Watchdogs.step, halive] at hnone
    · obtain rfl := Option.some.inj (h.beatAt.symm.trans hb)
      omega
  rcases (h.sound halive p).killer beat h.beatAt with hpending | ⟨-, hqueued⟩
  · obtain ⟨timer, hexpired⟩ := Timer.expire_isSome hpending hdeadline
    have hnone := hstuck (.late p) trivial
    simp [system, Watchdogs.step, halive, h.runs, hexpired] at hnone
  · obtain ⟨timer, hhandled⟩ := Timer.run_isSome hqueued
    have hnone := hstuck (.kill p) trivial
    simp [system, Watchdogs.step, halive, h.runs, hhandled] at hnone

/-- From every state in which a pool that is watched over is blocked and the other pool is not: while that stays so the process comes to its
exit, whatever the other pool does meanwhile, and by the time that two seconds have gone by since the last `beat`. -/
theorem blocked_pool_is_killed (p : Pool) (beat : Nat) (s : Watchdogs) (h : system.Reachable s) (hblocked : s.blocked p = true)
    (hruns : s.blocked p.other = false) (hbeat : (s.dog p).beatAt = some beat) :
    system.ComesTo (Watches p) (s.remaining p) (fun t => t.exited = true ∧ t.now ≤ max s.now (beat + 2 * second)) s := by
  have hlowers : system.Lowers (Watches p) (fun t => t.Blocked p beat ∧ t.now ≤ max s.now (beat + 2 * second)) (remaining p) := by
    refine ⟨?_, fun t a u ht ha hs => (ht.1.step ha hs).2.1⟩
    rintro t a u ⟨ht, htime⟩ ha hs
    obtain ⟨hu, -, hle⟩ := ht.step ha hs
    exact ⟨hu, hle.trans (max_le htime (le_max_right _ _))⟩
  refine hlowers.comesTo ⟨⟨sound_of_reach h, hblocked, hruns, hbeat⟩, le_max_left _ _⟩ ?_
  rintro t ⟨ht, htime⟩ hstuck
  exact ⟨ht.exited hstuck, htime⟩

/-- The auxilliary pool blocks after its first heartbeat. -/
theorem blocked_pool_is_killed_run :
    ∃ s : Watchdogs, (s.dog .auxilliary).beats = 1 ∧
      system.ComesTo (Watches .auxilliary) (s.remaining .auxilliary)
        (fun t => t.exited = true ∧ t.now ≤ max s.now (1200000 + 2 * second)) s := by
  obtain ⟨s, hs, hp⟩ := System.reachable_of_run (S := system)
    [.add .auxilliary, .add .control, .tick 1200000, .due .auxilliary, .heartbeat .auxilliary, .block .auxilliary, .due .control]
    (fun s => decide ((s.dog .auxilliary).beats = 1) && s.blocked .auxilliary && decide (s.blocked Pool.auxilliary.other = false) &&
      decide ((s.dog .auxilliary).beatAt = some 1200000)) (by decide)
  simp only [Bool.and_eq_true, decide_eq_true_eq] at hp
  obtain ⟨⟨⟨hbeats, hblocked⟩, hruns⟩, hbeat⟩ := hp
  exact ⟨s, hbeats, blocked_pool_is_killed .auxilliary 1200000 s hs hblocked hruns hbeat⟩

end Watchdogs

end FostWright
