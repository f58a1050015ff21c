import HeliumOS.Lib.Countdown
import HeliumOS.Lib.Loop
import HeliumOS.Mem.Address

/-!
# Calibration of the Timer

`interrupts/pic.rs`: `pit_calib_sleep` waits until the counter of the PIT has gone down by 11933,
which takes 10 ms, and `apic::init` computes the quantum from what its timer has counted meanwhile.

The counter has 16 bits and wraps around.  The loop subtracts each reading from the first one as if
it did not.

- `pit_measures_iff`: the loop measures the ticks exactly when the counter does not wrap before the
  reading that ends it.  A first reading of 44699 or more is always enough.
- `exists_not_measures`: a smaller first reading never is.
- `calibrate_of_first`: the quantum, when the counter does not wrap.
- `pitLoop_vm`: on a virtual machine a wrap ends the loop early instead.
-/

namespace HeliumOS.Proc

open HeliumOS.Lib

/-! ## Definitions -/

/-- `lo as u16 | (hi as u16) << 8`. -/
def refTimer (lo hi : BitVec 8) : BitVec 16 := lo.setWidth 16 ||| hi.setWidth 16 <<< 8

/-- What the hardware answers to `pit_calib_sleep`. -/
structure Calibration where
  /-- `debug::isvm()`. -/
  isvm : Bool
  /-- The bytes that are read from `PIT_CH0_DATA`, in order. -/
  data : ℕ → BitVec 8
  /-- `Measurer::measure()` before the loop. -/
  timerStart : ℕ
  /-- `Measurer::measure()` after the loop. -/
  timerEnd : ℕ

/-- How the loop of `pit_calib_sleep` ends. -/
inductive PitEnd where
  /-- `break`, with the number of ticks in excess. -/
  | error (ticks : ℕ)
  /-- The early `return` on a virtual machine, when time goes backwards. -/
  | backwards
  deriving DecidableEq, Repr

/-- `pit_delay`. -/
def pitDelay : ℕ := 11933

/-- `QUANTUM_MS`. -/
def quantumMs : ℕ := 100000

/-- One turn of the loop, from the reading on. -/
def pitTurn (isvm : Bool) (start now : BitVec 16) : Except Panic (Option PitEnd) :=
  if isvm ∧ start < now then
    .ok (some .backwards)
  else do
    let elapsed ← checkedSub .pitUnderflow start.toNat now.toNat
    if pitDelay ≤ elapsed then do
      -- the difference is computed once more for the error
      let again ← checkedSub .pitUnderflow start.toNat now.toNat
      let error ← checkedSub .pitUnderflow again pitDelay
      .ok (some (.error error))
    else
      .ok none

namespace Calibration

/-- Reading `k` of the counter: its low byte comes first.  Reading 0 is `ref_timer_start`. -/
def reading (c : Calibration) (k : ℕ) : BitVec 16 :=
  refTimer (c.data (2 * k)) (c.data (2 * k + 1))

/-- The turn of the loop that takes reading `k`. -/
def turn (c : Calibration) (k : ℕ) : Except Panic (Option PitEnd) :=
  pitTurn c.isvm (c.reading 0) (c.reading k)

/-- The first `n` turns of the loop.  Its end comes with the number of the last reading. -/
def pitLoop (c : Calibration) (n : ℕ) : Except Panic (Option (ℕ × PitEnd)) := poll c.turn n 1

/-- `pit_calib_sleep`, when the loop is given `n` turns. -/
def pitCalibSleep (c : Calibration) (n : ℕ) : Except Panic (Option (ℕ × ℕ)) := do
  match ← c.pitLoop n with
  | none => .ok none
  | some (_, .backwards) => do
    let timerEnd ← checkedSub .timerUnderflow c.timerStart 884248
    .ok (some (c.timerStart, timerEnd))
  | some (_, .error _) => .ok (some (c.timerStart, c.timerEnd))

/-- The calibration in `apic::init`, which returns the quantum. -/
def calibrate (c : Calibration) (n : ℕ) : Except Panic (Option ℕ) := do
  match ← c.pitCalibSleep n with
  | none => .ok none
  | some (before, after) => do
    let apic10ms ← checkedSub .timerUnderflow before after
    let product ← checkedMul 64 .quantumOverflow apic10ms quantumMs
    .ok (some (product / 10))

/-! ## What is meant -/

/-- Each reading is the previous one decreased by less than half a turn of the counter. -/
def CountsDown (c : Calibration) : Prop := ∀ k, Countdown.drop c.reading k < 2 ^ 15

/-- The total decrease since the first reading. -/
def elapsed (c : Calibration) (k : ℕ) : ℕ := Countdown.total c.reading k

/-- The delay is not over before reading `k`. -/
def Reaches (c : Calibration) (k : ℕ) : Prop := ∀ m < k, c.elapsed m < pitDelay

/-- The loop does not underflow, and ends with the first reading at which the delay is over, with
the excess as its error. -/
structure Measures (c : Calibration) : Prop where
  safe : ∀ n e, c.pitLoop n ≠ .error e
  exits : ∀ n k outcome, c.pitLoop n = .ok (some (k, outcome)) ↔
    k ≤ n ∧ c.Reaches k ∧ pitDelay ≤ c.elapsed k ∧ outcome = .error (c.elapsed k - pitDelay)

/-! ## One turn -/

theorem elapsed_zero (c : Calibration) : c.elapsed 0 = 0 := Countdown.total_zero _

theorem elapsed_succ (c : Calibration) (k : ℕ) :
    c.elapsed (k + 1) = c.elapsed k + Countdown.drop c.reading k := Countdown.total_succ _ k

end Calibration

/-- A turn on real hardware. -/
theorem pitTurn_real (start now : BitVec 16) :
    pitTurn false start now =
      if now.toNat ≤ start.toNat then
        .ok (if pitDelay ≤ start.toNat - now.toNat then
          some (.error (start.toNat - now.toNat - pitDelay)) else none)
      else .error .pitUnderflow := by
  simp only [pitTurn, Bool.false_eq_true, false_and, if_false]
  by_cases hle : now.toNat ≤ start.toNat
  · have hsub : checkedSub Panic.pitUnderflow start.toNat now.toNat =
        .ok (start.toNat - now.toNat) := if_pos hle
    rw [if_pos hle, hsub, except_ok_bind, except_ok_bind]
    split_ifs with hdelay
    · rw [checkedSub, if_pos hdelay, except_ok_bind]
    · rfl
  · rw [if_neg hle, checkedSub, if_neg hle, except_error_bind]

namespace Calibration

variable {c : Calibration} {k n : ℕ}

/-- A reading that the loop comes to is less than a whole turn away from the first one. -/
theorem elapsed_le (hdown : c.CountsDown) (hreaches : c.Reaches k) : c.elapsed k ≤ 44699 := by
  cases k with
  | zero =>
    rw [elapsed_zero]
    exact Nat.zero_le _
  | succ k =>
    have hbefore := hreaches k (Nat.lt_succ_self k)
    have hdrop := hdown k
    rw [pitDelay] at hbefore
    rw [elapsed_succ]
    omega

/-- Without a wrap the turn sees the total decrease. -/
theorem turn_of_le (hreal : c.isvm = false) (hdown : c.CountsDown) (hreaches : c.Reaches k)
    (hle : c.elapsed k ≤ (c.reading 0).toNat) :
    c.turn k = .ok (if pitDelay ≤ c.elapsed k then
      some (.error (c.elapsed k - pitDelay)) else none) := by
  have hlt : c.elapsed k < 2 ^ 16 := (elapsed_le hdown hreaches).trans_lt (by decide)
  rw [turn, hreal, pitTurn_real, if_pos ((Countdown.toNat_le_iff hlt).mpr hle),
    Countdown.sub_eq_total hlt hle]
  rfl

/-- After a wrap the turn underflows. -/
theorem turn_of_wrap (hreal : c.isvm = false) (hdown : c.CountsDown) (hreaches : c.Reaches k)
    (hwrap : (c.reading 0).toNat < c.elapsed k) : c.turn k = .error .pitUnderflow := by
  have hlt : c.elapsed k < 2 ^ 16 := (elapsed_le hdown hreaches).trans_lt (by decide)
  rw [turn, hreal, pitTurn_real, if_neg]
  intro hle
  exact absurd ((Countdown.toNat_le_iff hlt).mp hle) (Nat.not_le.mpr hwrap)

/-! ## The loop -/

/-- The counter does not wrap before the reading that ends the loop. -/
def NoWrap (c : Calibration) : Prop := ∀ k, c.Reaches k → c.elapsed k ≤ (c.reading 0).toNat

theorem Reaches.mono {m : ℕ} (hreaches : c.Reaches k) (hle : m ≤ k) : c.Reaches m :=
  fun m' hlt => hreaches m' (hlt.trans_le hle)

/-- The first reading does not end the delay. -/
theorem pos_of_over (hover : pitDelay ≤ c.elapsed k) : 1 ≤ k := by
  rcases Nat.eq_zero_or_pos k with rfl | hpos
  · rw [elapsed_zero] at hover
    exact absurd hover (by decide)
  · exact hpos

/-- The turns before the end of the delay wait, as long as the counter has not wrapped. -/
theorem waits_of_reaches (hreal : c.isvm = false) (hdown : c.CountsDown) (hreaches : c.Reaches k)
    (hle : ∀ m < k, c.elapsed m ≤ (c.reading 0).toNat) : Waits c.turn 1 k := by
  intro m _ hlt
  rw [turn_of_le hreal hdown (hreaches.mono hlt.le) (hle m hlt),
    if_neg (Nat.not_le.mpr (hreaches m hlt))]

/-- The delay is not over at any turn that waits. -/
theorem reaches_of_waits (hreal : c.isvm = false) (hdown : c.CountsDown) (hno : c.NoWrap)
    (hwaits : Waits c.turn 1 k) : c.Reaches k := by
  intro m
  induction m using Nat.strongRecOn with
  | ind m ih =>
    intro hlt
    have hreaches : c.Reaches m := fun m' hlt' => ih m' hlt' (hlt'.trans hlt)
    by_contra hover
    rw [Nat.not_lt] at hover
    -- the turn of this reading would have answered
    have hturn := hwaits m (pos_of_over hover) hlt
    rw [turn_of_le hreal hdown hreaches (hno m hreaches), if_pos hover] at hturn
    cases hturn

/-- The loop ends at the first reading at which the delay is over. -/
theorem pitLoop_of_first (hreal : c.isvm = false) (hdown : c.CountsDown) (hno : c.NoWrap)
    (hkn : k ≤ n) (hreaches : c.Reaches k) (hover : pitDelay ≤ c.elapsed k) :
    c.pitLoop n = .ok (some (k, .error (c.elapsed k - pitDelay))) := by
  refine poll_eq_some.mpr ⟨pos_of_over hover, by omega, ?_, ?_⟩
  · exact waits_of_reaches hreal hdown hreaches fun m hlt => hno m (hreaches.mono hlt.le)
  · rw [turn_of_le hreal hdown hreaches (hno k hreaches), if_pos hover]

theorem NoWrap.measures (hreal : c.isvm = false) (hdown : c.CountsDown) (hno : c.NoWrap) :
    c.Measures where
  safe n e := by
    by_cases hend : ∃ k, k ≤ n ∧ pitDelay ≤ c.elapsed k
    · -- the loop ends within its turns
      obtain ⟨hkn, hover⟩ := Nat.find_spec hend
      have hreaches : c.Reaches (Nat.find hend) := fun m hlt => by
        by_contra hearlier
        exact Nat.find_min hend hlt ⟨hlt.le.trans hkn, Nat.not_lt.mp hearlier⟩
      rw [pitLoop_of_first hreal hdown hno hkn hreaches hover]
      simp
    · -- it is still waiting
      have hreaches : c.Reaches (1 + n) := fun m hlt => by
        by_contra hover
        exact hend ⟨m, by omega, Nat.not_lt.mp hover⟩
      have hwaits := waits_of_reaches hreal hdown hreaches
        fun m hlt => hno m (hreaches.mono hlt.le)
      rw [pitLoop, poll_of_waits_all hwaits]
      simp
  exits n k outcome := by
    constructor
    · intro hloop
      obtain ⟨-, hkn, hwaits, hturn⟩ := poll_eq_some.mp hloop
      have hreaches := reaches_of_waits hreal hdown hno hwaits
      rw [turn_of_le hreal hdown hreaches (hno k hreaches)] at hturn
      split_ifs at hturn with hover
      · cases hturn
        exact ⟨by omega, hreaches, hover, rfl⟩
      · cases hturn
    · rintro ⟨hkn, hreaches, hover, rfl⟩
      exact pitLoop_of_first hreal hdown hno hkn hreaches hover

/-- A loop that does not underflow comes to no reading after a wrap. -/
theorem Measures.noWrap (hreal : c.isvm = false) (hdown : c.CountsDown) (h : c.Measures) :
    c.NoWrap := by
  intro k
  induction k using Nat.strongRecOn with
  | ind k ih =>
    intro hreaches
    by_contra hwrap
    rw [Nat.not_le] at hwrap
    have hpos : 1 ≤ k := by
      rcases Nat.eq_zero_or_pos k with rfl | hpos
      · rw [elapsed_zero] at hwrap
        exact absurd hwrap (Nat.not_lt_zero _)
      · exact hpos
    have hwaits := waits_of_reaches hreal hdown hreaches
      fun m hlt => ih m hlt (hreaches.mono hlt.le)
    exact h.safe k .pitUnderflow
      (poll_of_error hpos (by omega) hwaits (turn_of_wrap hreal hdown hreaches hwrap))

end Calibration

/-! ## Readings of any kind -/

theorem refTimer_bytes (v : BitVec 16) :
    refTimer (v.setWidth 8) ((v >>> 8).setWidth 8) = v := by
  ext i hi
  simp only [refTimer, BitVec.getElem_or, BitVec.getElem_setWidth, BitVec.getElem_shiftLeft,
    BitVec.getLsbD_setWidth, BitVec.getLsbD_ushiftRight]
  -- the low byte gives the bits below 8, the high byte the others
  by_cases hlow : i < 8
  · simp [hlow, BitVec.getLsbD_eq_getElem hi]
  · have hshift : 8 + (i - 8) = i := by omega
    have hhigh : i - 8 < 8 := by omega
    simp [hlow, hshift, hhigh, BitVec.getLsbD_eq_getElem hi]

namespace Calibration

/-- Real hardware whose counter gives the readings `r`. -/
def ofReadings (r : ℕ → BitVec 16) (timerStart timerEnd : ℕ) : Calibration where
  isvm := false
  data n := if n % 2 = 0 then (r (n / 2)).setWidth 8 else (r (n / 2) >>> 8).setWidth 8
  timerStart := timerStart
  timerEnd := timerEnd

@[simp] theorem reading_ofReadings (r : ℕ → BitVec 16) (timerStart timerEnd : ℕ) :
    (ofReadings r timerStart timerEnd).reading = r := by
  funext k
  have hlo : 2 * k % 2 = 0 := Nat.mul_mod_right 2 k
  have hhi : ¬ (2 * k + 1) % 2 = 0 := by omega
  have hhalf : (2 * k + 1) / 2 = k := by omega
  simp only [reading, ofReadings, if_pos hlo, if_neg hhi, hhalf, Nat.mul_div_cancel_left k two_pos]
  exact refTimer_bytes (r k)

/-- A reading, and another one from then on. -/
def twoReadings (start next : BitVec 16) (k : ℕ) : BitVec 16 := if k = 0 then start else next

theorem countsDown_twoReadings {start next : BitVec 16} (h : (start - next).toNat < 2 ^ 15) :
    (ofReadings (twoReadings start next) 0 0).CountsDown := by
  intro k
  rw [reading_ofReadings]
  cases k with
  | zero => exact h
  | succ k => simp [Countdown.drop, twoReadings]

theorem turn_twoReadings (start next : BitVec 16) :
    (ofReadings (twoReadings start next) 0 0).turn 1 = pitTurn false start next := by
  rw [turn, reading_ofReadings]
  rfl

end Calibration

/-- **The loop measures the ticks exactly when the counter does not wrap before the reading that
ends it.** Such a wrap is impossible when the first reading is 44699 or more. Otherwise the
difference of the two readings underflows, since the loop does not compute modulo 2^16. -/
theorem pit_measures_iff (c : Calibration) (hreal : c.isvm = false) (hdown : c.CountsDown) :
    (c.Measures ↔
      ∀ k, (∀ m < k, c.elapsed m < pitDelay) → c.elapsed k ≤ (c.reading 0).toNat) ∧
    (44699 ≤ (c.reading 0).toNat → c.Measures) := by
  refine ⟨⟨Calibration.Measures.noWrap hreal hdown, fun hno => ?_⟩, fun hstart => ?_⟩
  · exact Calibration.NoWrap.measures hreal hdown hno
  · refine Calibration.NoWrap.measures hreal hdown fun k hreaches => ?_
    exact (Calibration.elapsed_le hdown hreaches).trans hstart

/-- The counter starts at 60000 and is read again at 40000, after 20000 ticks. -/
theorem pit_measures_twoReadings :
    (Calibration.ofReadings (Calibration.twoReadings 60000 40000) 0 0).Measures ∧
      (Calibration.ofReadings (Calibration.twoReadings 60000 40000) 0 0).pitLoop 1 =
        .ok (some (1, .error 8067)) := by
  have hdown : (Calibration.ofReadings (Calibration.twoReadings 60000 40000) 0 0).CountsDown :=
    Calibration.countsDown_twoReadings (by decide)
  refine ⟨(pit_measures_iff _ rfl hdown).2 ?_, ?_⟩
  · rw [Calibration.reading_ofReadings]
    decide
  · rw [Calibration.pitLoop, poll, Calibration.turn_twoReadings, pitTurn_real]
    rfl

/-- The counter starts at 100 and is read again at 65535, after 101 ticks.  The loop computes
`100 - 65535`. -/
theorem pit_underflows_after_wrap :
    let c := Calibration.ofReadings (Calibration.twoReadings 100 65535) 0 0
    c.isvm = false ∧ c.CountsDown ∧ c.reading 0 = 100 ∧ c.reading 1 = 65535 ∧ c.elapsed 1 = 101 ∧
      c.pitLoop 1 = .error .pitUnderflow ∧ ¬ c.Measures := by
  intro c
  have hdown : c.CountsDown := Calibration.countsDown_twoReadings (by decide)
  have hreading : c.reading = Calibration.twoReadings 100 65535 :=
    Calibration.reading_ofReadings _ 0 0
  have hloop : c.pitLoop 1 = .error .pitUnderflow := by
    rw [Calibration.pitLoop, poll, Calibration.turn_twoReadings, pitTurn_real]
    rfl
  refine ⟨rfl, hdown, ?_, ?_, ?_, hloop, fun hmeasures => hmeasures.safe 1 _ hloop⟩
  · rw [hreading]
    rfl
  · rw [hreading]
    rfl
  · rw [Calibration.elapsed_succ, Calibration.elapsed_zero, hreading]
    rfl

/-! ## First readings that are too small -/

namespace Calibration

/-- The readings `start` and `start - first`, and then 65535: one tick beyond zero. -/
def wrapping (start : BitVec 16) (first : ℕ) : ℕ → BitVec 16
  | 0 => start
  | 1 => start - BitVec.ofNat 16 first
  | _ => BitVec.allOnes 16

theorem drop_wrapping_zero {start : BitVec 16} {first : ℕ} (hlt : first < 2 ^ 16) :
    Countdown.drop (wrapping start first) 0 = first := by
  have hstart := start.isLt
  simp only [Countdown.drop, wrapping, BitVec.toNat_sub, BitVec.toNat_ofNat, Nat.mod_eq_of_lt hlt]
  omega

theorem drop_wrapping_one {start : BitVec 16} {first : ℕ} (hfirst : first ≤ start.toNat + 1)
    (hrest : start.toNat + 1 - first < 2 ^ 15) (hlt : first < 2 ^ 16) :
    Countdown.drop (wrapping start first) 1 = start.toNat + 1 - first := by
  simp only [Countdown.drop, wrapping, BitVec.toNat_sub, BitVec.toNat_allOnes, BitVec.toNat_ofNat,
    Nat.mod_eq_of_lt hlt]
  omega

theorem drop_wrapping_later (start : BitVec 16) (first k : ℕ) :
    Countdown.drop (wrapping start first) (k + 2) = 0 := by
  simp [Countdown.drop, wrapping]

end Calibration

/-- **No smaller first reading is safe.**  From every first reading below 44699 the counter can go
down such that the loop does not measure its ticks. -/
theorem exists_not_measures {start : BitVec 16} (hstart : start.toNat < 44699) :
    ∃ c : Calibration, c.isvm = false ∧ c.reading 0 = start ∧ c.CountsDown ∧ ¬ c.Measures := by
  -- one reading just before the end of the delay, if it comes before the wrap, and one after it
  obtain ⟨first, hfirst, hdelay, hrest⟩ : ∃ first, first ≤ start.toNat + 1 ∧ first < pitDelay ∧
      start.toNat + 1 - first < 2 ^ 15 :=
    ⟨min (start.toNat + 1) 11932, by omega, by rw [pitDelay]; omega, by omega⟩
  have hlt : first < 2 ^ 16 := hdelay.trans (by decide)
  have hzero : Countdown.drop (Calibration.wrapping start first) 0 = first :=
    Calibration.drop_wrapping_zero hlt
  have hone := Calibration.drop_wrapping_one hfirst hrest hlt
  let c := Calibration.ofReadings (Calibration.wrapping start first) 0 0
  have hreading : c.reading = Calibration.wrapping start first :=
    Calibration.reading_ofReadings _ 0 0
  have hdown : c.CountsDown := by
    intro k
    rw [hreading]
    match k with
    | 0 =>
      rw [hzero]
      exact hdelay.trans (by decide)
    | 1 => rwa [hone]
    | k + 2 =>
      rw [Calibration.drop_wrapping_later]
      decide
  have helapsed : c.elapsed 1 = first := by
    rw [Calibration.elapsed_succ, Calibration.elapsed_zero, hreading, hzero, Nat.zero_add]
  have hreaches : c.Reaches 2 := by
    intro m hm
    match m with
    | 0 => exact Nat.zero_lt_of_lt hdelay
    | 1 => rwa [helapsed]
  refine ⟨c, rfl, by rw [hreading]; rfl, hdown, fun hmeasures => ?_⟩
  have hle := hmeasures.noWrap rfl hdown 2 hreaches
  rw [Calibration.elapsed_succ, helapsed, hreading, hone] at hle
  simp only [Calibration.wrapping] at hle
  omega

/-! ## The quantum -/

namespace Calibration

variable {c : Calibration} {k n : ℕ}

/-- Without a wrap the quantum is 10000 times what the timer has counted down. -/
theorem calibrate_of_first (hreal : c.isvm = false) (hdown : c.CountsDown) (hno : c.NoWrap)
    (hkn : k ≤ n) (hreaches : c.Reaches k) (hover : pitDelay ≤ c.elapsed k)
    (htimer : c.timerEnd ≤ c.timerStart)
    (hfits : (c.timerStart - c.timerEnd) * quantumMs < 2 ^ 64) :
    c.calibrate n = .ok (some ((c.timerStart - c.timerEnd) * 10000)) := by
  have hsleep : c.pitCalibSleep n = .ok (some (c.timerStart, c.timerEnd)) := by
    rw [pitCalibSleep, pitLoop_of_first hreal hdown hno hkn hreaches hover]
    rfl
  have hdiv : (c.timerStart - c.timerEnd) * quantumMs / 10 =
      (c.timerStart - c.timerEnd) * 10000 := by
    rw [show quantumMs = 10000 * 10 from rfl, ← Nat.mul_assoc]
    exact Nat.mul_div_cancel _ (by decide)
  have hsub : checkedSub Panic.timerUnderflow c.timerStart c.timerEnd =
      .ok (c.timerStart - c.timerEnd) := checkedSub_eq_ok.mpr ⟨htimer, rfl⟩
  have hmul : checkedMul 64 Panic.quantumOverflow (c.timerStart - c.timerEnd) quantumMs =
      .ok ((c.timerStart - c.timerEnd) * quantumMs) := checkedMul_eq_ok.mpr ⟨hfits, rfl⟩
  -- one computation after the other, as `simp` with `except_ok_bind` is slow here
  refine except_bind_eq_ok.mpr ⟨_, hsleep, ?_⟩
  refine except_bind_eq_ok.mpr ⟨_, hsub, ?_⟩
  refine except_bind_eq_ok.mpr ⟨_, hmul, ?_⟩
  rw [hdiv]

/-- On a virtual machine the loop returns before it could underflow: a reading above the first one
is taken for the end of the delay. -/
theorem pitLoop_vm (hvm : c.isvm = true) (n : ℕ) (e : Panic) : c.pitLoop n ≠ .error e := by
  refine poll_ne_error fun k => ?_
  rw [turn, hvm, pitTurn]
  split_ifs with hback
  · simp
  · have hle : (c.reading k).toNat ≤ (c.reading 0).toNat := by
      simpa [BitVec.lt_def] using hback
    simp only [checkedSub, if_pos hle, except_ok_bind]
    split_ifs <;> simp

end Calibration

end HeliumOS.Proc
