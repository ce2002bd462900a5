import Mathlib.Order.MinMax
import StreakKernel.AcpuClock.Basic
import StreakKernel.Lib.Run

/-!
# The processor is never undervolted

The applied voltage covers the row in use, and every rate that an idle or power collapse
switch has saved and will return to.
-/

namespace StreakKernel.AcpuClock

open List

theorem findSpeed_mem {rate : ℕ} {rows : List Speed} {speed : Speed}
    (found : findSpeed rate rows = some speed) :
    speed ∈ liveRows rows ∧ speed.acpuclkKhz = rate := by
  induction rows with
  | nil => simp [findSpeed] at found
  | cons first rest ih =>
    rw [findSpeed] at found
    split at found
    · simp at found
    rename_i firstLive
    have rows_eq : liveRows (first :: rest) = first :: liveRows rest := by
      simp [liveRows, firstLive]
    rw [rows_eq]
    split at found
    · rename_i same
      obtain rfl := Option.some.inj found
      exact ⟨mem_cons_self, same⟩
    · exact ⟨mem_cons_of_mem _ (ih found).1, (ih found).2⟩

namespace Driver

/-- Every `config_pll` step was made at a voltage that covers the row it selected. -/
def Covered (driver : Driver) : Prop :=
  ∀ selection ∈ driver.selections, selection.speed.vdd ≤ selection.appliedVdd
  deriving Decidable

variable {driver : Driver} {speed : Speed} {state : Bool}

theorem Covered.configPll (covered : driver.Covered) (enough : speed.vdd ≤ driver.appliedVdd) :
    (driver.configPll speed).Covered := by
  intro selection member
  rcases mem_append.mp member with earlier | latest
  · exact covered selection earlier
  · obtain rfl := mem_singleton.mp latest
    exact enough

end Driver

section Parts

variable {table : FreqTable} {start target : Speed} {driver : Driver} {call : Call}

@[simp]
theorem switchSource_appliedVdd :
    (switchSource table start target driver).appliedVdd = driver.appliedVdd := by
  unfold switchSource
  split_ifs <;> rfl

@[simp]
theorem switchSource_regulated :
    (switchSource table start target driver).regulated = driver.regulated := by
  unfold switchSource
  split_ifs <;> rfl

theorem switchSource_covered (start : Speed) (covered : driver.Covered)
    (member : target ∈ table.live) (enough : target.vdd ≤ driver.appliedVdd) :
    (switchSource table start target driver).Covered := by
  have pll0Enough := (table.pll0S_vdd_le member).trans enough
  unfold switchSource
  split_ifs
  · exact covered.configPll enough
  · exact Driver.Covered.configPll covered enough
  · exact covered.configPll enough
  · exact (covered.configPll pll0Enough).configPll enough

theorem acpuclkSetVddLevel_cases (answers : Answers) (vdd : ℤ) (driver : Driver) :
    (driver.regulated = true ∧
        driver.acpuclkSetVddLevel answers vdd = (0, { driver with appliedVdd := vdd })) ∨
      (∃ error, error ≠ 0 ∧ driver.acpuclkSetVddLevel answers vdd = (error, driver)) ∨
      (driver.regulated = false ∧ driver.acpuclkSetVddLevel answers vdd = (0, driver)) := by
  unfold Driver.acpuclkSetVddLevel
  by_cases regulated : driver.regulated = true
  · by_cases accepted : answers.acpuSetVdd vdd = 0
    · exact .inl ⟨regulated, by simp [regulated, accepted]⟩
    · exact .inr (.inl ⟨_, accepted, by simp [regulated, accepted]⟩)
  · simp only [Bool.not_eq_true] at regulated
    exact .inr (.inr ⟨regulated, by simp [regulated]⟩)

theorem voteAxi_spec (answers : Answers) (start target : Speed) (driver : Driver) :
    (voteAxi answers start target driver).currentSpeed = driver.currentSpeed ∧
      (voteAxi answers start target driver).regulated = driver.regulated ∧
      (voteAxi answers start target driver).selections = driver.selections ∧
      (voteAxi answers start target driver).appliedVdd = driver.appliedVdd := by
  unfold voteAxi
  split_ifs <;> exact ⟨rfl, rfl, rfl, rfl⟩

/-- Settling keeps the selections, and lowers the voltage only after a request that
may drop it, to the voltage of the row then in use. -/
theorem settle_spec (call : Call) (start target : Speed) (driver : Driver) :
    (settle call start target driver).currentSpeed = target ∧
      (settle call start target driver).regulated = driver.regulated ∧
      (settle call start target driver).selections = driver.selections ∧
      ((settle call start target driver).appliedVdd = driver.appliedVdd ∨
        (call.reason ≠ .swfi ∧ call.reason ≠ .pc ∧ driver.regulated = true ∧
          (settle call start target driver).appliedVdd = target.vdd)) := by
  unfold settle
  dsimp only
  split
  · exact ⟨rfl, rfl, rfl, .inl rfl⟩
  rename_i notSwfi
  obtain ⟨speed_eq, regulated_eq, selections_eq, applied_eq⟩ := voteAxi_spec call.answers
    start target { driver with currentSpeed := target, loopsPerJiffy := target.lpj }
  split
  · exact ⟨speed_eq, regulated_eq, selections_eq, .inl applied_eq⟩
  rename_i notPc
  unfold dropVdd
  split
  · rcases acpuclkSetVddLevel_cases call.answers target.vdd (voteAxi call.answers start target
        { driver with currentSpeed := target, loopsPerJiffy := target.lpj })
      with ⟨regulated, result⟩ | ⟨_, _, result⟩ | ⟨_, result⟩
    · rw [result]
      exact ⟨speed_eq, regulated_eq, selections_eq,
        .inr ⟨notSwfi, notPc, regulated_eq.symm.trans regulated, rfl⟩⟩
    all_goals
      rw [result]
      exact ⟨speed_eq, regulated_eq, selections_eq, .inl applied_eq⟩
  · exact ⟨speed_eq, regulated_eq, selections_eq, .inl applied_eq⟩

end Parts

/-- The applied voltage covers the row in use, as it covered every selection. -/
structure Powered (table : FreqTable) (driver : Driver) : Prop where
  member : driver.currentSpeed ∈ table.live
  enough : driver.currentSpeed.vdd ≤ driver.appliedVdd
  covered : driver.Covered
  default : driver.regulated = false → ∀ speed ∈ table.live, speed.vdd ≤ driver.appliedVdd

/-- A rate to which the driver can return without a change of voltage. -/
def Affords (table : FreqTable) (driver : Driver) (rate : ℕ) : Prop :=
  ∀ speed ∈ table.live, speed.acpuclkKhz = rate → speed.vdd ≤ driver.appliedVdd

section Step

variable {table : FreqTable} {driver : Driver} {call : Call}

section

variable (powered : Powered table driver)
include powered

theorem Powered.affords {rate : ℕ}
    (low : rate ≤ max driver.currentSpeed.acpuclkKhz table.pll0S.acpuclkKhz) :
    Affords table driver rate := by
  intro speed member rate_eq
  subst rate_eq
  rcases le_max_iff.mp low with belowCurrent | belowPll0
  · exact (table.monotone speed member _ powered.member belowCurrent).trans powered.enough
  calc speed.vdd
      ≤ table.pll0S.vdd := table.monotone speed member _ table.pll0S_mem belowPll0
    _ ≤ driver.currentSpeed.vdd := table.pll0S_vdd_le powered.member
    _ ≤ driver.appliedVdd := powered.enough

/-- Before the switch the voltage covers the target, or the call has failed. -/
theorem Powered.prepare (call : Call) {target : Speed} (member : target ∈ table.live)
    (affordable : call.reason ≠ .cpufreq → target.vdd ≤ driver.appliedVdd) :
    let prepared := prepare table call driver.currentSpeed target driver
    prepared.2.Covered ∧ prepared.2.regulated = driver.regulated ∧
      (prepared.1 ≠ 0 → prepared.2 = driver) ∧
      (prepared.1 = 0 → target.vdd ≤ prepared.2.appliedVdd) ∧
      (call.reason ≠ .cpufreq → prepared.2.appliedVdd = driver.appliedVdd) ∧
      (driver.regulated = false → prepared.2.appliedVdd = driver.appliedVdd) := by
  intro prepared
  unfold prepared AcpuClock.prepare
  split_ifs with governed raise
  · rcases acpuclkSetVddLevel_cases call.answers target.vdd driver
      with ⟨regulated, result⟩ | ⟨error, failed, result⟩ | ⟨unregulated, result⟩
    · rw [result]
      exact ⟨powered.covered, rfl, fun nonzero => absurd rfl nonzero, fun _ => le_rfl,
        fun other => absurd governed other, fun unregulated => by simp [unregulated] at regulated⟩
    · rw [result]
      exact ⟨powered.covered, rfl, fun _ => rfl, fun zero => absurd zero failed,
        fun _ => rfl, fun _ => rfl⟩
    · rw [result]
      exact ⟨powered.covered, rfl, fun _ => rfl,
        fun _ => powered.default unregulated target member, fun _ => rfl, fun _ => rfl⟩
  · exact ⟨powered.covered, rfl, fun _ => rfl,
      fun _ => (not_lt.mp raise).trans powered.enough, fun _ => rfl, fun _ => rfl⟩
  · have stepped := powered.covered.configPll
      ((table.pll0S_vdd_le powered.member).trans powered.enough)
    exact ⟨stepped, rfl, fun nonzero => absurd rfl nonzero, fun _ => affordable governed,
      fun _ => rfl, fun _ => rfl⟩
  · exact ⟨powered.covered, rfl, fun _ => rfl, fun _ => affordable governed, fun _ => rfl,
      fun _ => rfl⟩

/-- A call keeps the processor powered when a governor makes it or the voltage
already covers the rate. An idle or power collapse call leaves the voltage alone. -/
theorem Powered.acpuclkSetRate
    (affordable : call.reason ≠ .cpufreq → Affords table driver call.rate) :
    Powered table (acpuclkSetRate table driver call).2 ∧ (call.reason = .swfi ∨ call.reason = .pc →
        (acpuclkSetRate table driver call).2.appliedVdd = driver.appliedVdd) := by
  unfold AcpuClock.acpuclkSetRate
  by_cases same : call.rate = driver.currentSpeed.acpuclkKhz
  · rw [if_pos same]
    exact ⟨powered, fun _ => rfl⟩
  rw [if_neg same]
  cases found : findSpeed call.rate table.rows with
  | none => exact ⟨powered, fun _ => rfl⟩
  | some target =>
    obtain ⟨member, rate_eq⟩ := findSpeed_mem found
    obtain ⟨covered, regulated_eq, failed, enough, kept, keptDefault⟩ :=
      powered.prepare call member fun other => affordable other target member rate_eq
    dsimp only
    split
    · rename_i nonzero
      rw [failed nonzero]
      exact ⟨powered, fun _ => rfl⟩
    rename_i succeeded
    have targetEnough := enough (not_not.mp succeeded)
    have switched := switchSource_covered driver.currentSpeed covered member targetEnough
    obtain ⟨speed_eq, settledRegulated, selections_eq, applied⟩ :=
      settle_spec call driver.currentSpeed target
        (switchSource table driver.currentSpeed target
          (AcpuClock.prepare table call driver.currentSpeed target driver).2)
    rw [switchSource_appliedVdd] at applied
    rw [switchSource_regulated, regulated_eq] at settledRegulated
    refine ⟨⟨?_, ?_, ?_, ?_⟩, ?_⟩
    · rw [speed_eq]
      exact member
    · rw [speed_eq]
      rcases applied with unchanged | ⟨_, _, _, dropped⟩
      · rw [unchanged]
        exact targetEnough
      · exact dropped.ge
    · intro selection selected
      exact switched selection (selections_eq ▸ selected)
    · intro unregulated speed live
      rw [settledRegulated] at unregulated
      rcases applied with unchanged | ⟨_, _, regulated, _⟩
      · rw [unchanged, keptDefault unregulated]
        exact powered.default unregulated speed live
      · rw [switchSource_regulated, regulated_eq, unregulated] at regulated
        simp at regulated
    · intro idle
      rcases applied with unchanged | ⟨notSwfi, notPc, _, _⟩
      · rw [unchanged]
        exact kept (by rcases idle with isSwfi | isPc <;> simp [*])
      · exact (idle.elim notSwfi notPc).elim

end

end Step

abbrev Saved := SetrateReason × ℕ

/-- Every idle and power collapse switch is paired with the return to the rate it has saved, and
the governor calls between pairs. The first argument holds the open pairs, the innermost first. -/
inductive Paired (table : FreqTable) : List Saved → Driver → List Call → Prop
  | done {saved driver} : Paired table saved driver []
  | governor {driver call rest} : call.reason = .cpufreq →
      Paired table [] (acpuclkSetRate table driver call).2 rest →
      Paired table [] driver (call :: rest)
  | initial {driver call rest} : call.reason = .init → call.rate ≤ driver.currentSpeed.acpuclkKhz →
      Paired table [] (acpuclkSetRate table driver call).2 rest →
      Paired table [] driver (call :: rest)
  | down {saved driver call rest} : call.reason = .swfi ∨ call.reason = .pc →
      call.rate ≤ max driver.currentSpeed.acpuclkKhz table.pll0S.acpuclkKhz →
      Paired table ((call.reason, driver.currentSpeed.acpuclkKhz) :: saved)
        (acpuclkSetRate table driver call).2 rest →
      Paired table saved driver (call :: rest)
  | back {entry saved driver call rest} : call.reason = .swfi ∨ call.reason = .pc →
      entry = (call.reason, call.rate) →
      Paired table saved (acpuclkSetRate table driver call).2 rest →
      Paired table (entry :: saved) driver (call :: rest)

def acpuclkRun (table : FreqTable) (driver : Driver) (calls : List Call) : Driver :=
  Run.run (fun state call => (acpuclkSetRate table state call).2) driver calls

section Histories

variable {table : FreqTable} {driver : Driver} {saved : List Saved} {calls : List Call}

theorem Affords.of_appliedVdd {before after : Driver} {rate : ℕ}
    (affords : Affords table before rate) (unchanged : after.appliedVdd = before.appliedVdd) :
    Affords table after rate := by
  intro speed member rate_eq
  rw [unchanged]
  exact affords speed member rate_eq

theorem Paired.powered (paired : Paired table saved driver calls) (powered : Powered table driver)
    (returnable : ∀ entry ∈ saved, Affords table driver entry.2) :
    Powered table (acpuclkRun table driver calls) := by
  induction paired with
  | done => exact powered
  | governor governed _ ih =>
    have next := powered.acpuclkSetRate fun other => absurd governed other
    exact ih next.1 (by simp)
  | initial _ low _ ih =>
    have next := powered.acpuclkSetRate fun _ => powered.affords (le_max_of_le_left low)
    exact ih next.1 (by simp)
  | down idle low _ ih =>
    have next := powered.acpuclkSetRate fun _ => powered.affords low
    have unchanged := next.2 idle
    refine ih next.1 fun entry member => ?_
    rcases mem_cons.mp member with rfl | outer
    · exact (powered.affords (le_max_left _ _)).of_appliedVdd unchanged
    · exact (returnable entry outer).of_appliedVdd unchanged
  | back idle matching _ ih =>
    subst matching
    have next := powered.acpuclkSetRate fun _ => returnable _ mem_cons_self
    have unchanged := next.2 idle
    exact ih next.1 fun entry member =>
      (returnable entry (mem_cons_of_mem _ member)).of_appliedVdd unchanged

/-- Along every paired sequence of calls, whatever the regulator answers, the voltage covers each
row that is selected. -/
theorem Paired.never_undervolts (paired : Paired table [] driver calls)
    (member : driver.currentSpeed ∈ table.live)
    (enough : driver.currentSpeed.vdd ≤ driver.appliedVdd)
    (unregulated : driver.regulated = false → ∀ speed ∈ table.live, speed.vdd ≤ driver.appliedVdd)
    (fresh : driver.selections = []) :
    (∀ selection ∈ (acpuclkRun table driver calls).selections,
        selection.speed.vdd ≤ selection.appliedVdd) ∧
      (acpuclkRun table driver calls).currentSpeed.vdd ≤
        (acpuclkRun table driver calls).appliedVdd := by
  have covered : driver.Covered := by
    intro selection selected
    simp [fresh] at selected
  have powered := paired.powered ⟨member, enough, covered, unregulated⟩ (by simp)
  exact ⟨powered.covered, powered.enough⟩

end Histories

def pll3Row (khz axiKhz lValue : ℕ) (vdd : ℤ) : Speed :=
  ⟨khz, .pll3, 0, 0, axiKhz, 1, lValue, vdd, 0⟩

def acpuFreqRows998 : List Speed :=
  [⟨19200, .tcxo, 0, 0, 14000, 0, 0, 1000, 0⟩, ⟨128000, .pll1, 1, 5, 14000, 2, 0, 1000, 0⟩,
    ⟨245760, .pll0, 4, 0, 29000, 0, 0, 1000, 0⟩,
    pll3Row 384000 58000 0xA 1000,
    pll3Row 422400 117000 0xB 1000,
    pll3Row 460800 117000 0xC 1000,
    pll3Row 499200 117000 0xD 1050,
    pll3Row 537600 117000 0xE 1050,
    pll3Row 576000 117000 0xF 1050,
    pll3Row 614400 117000 0x10 1075,
    pll3Row 652800 117000 0x11 1100,
    pll3Row 691200 117000 0x12 1125,
    pll3Row 729600 117000 0x13 1150,
    pll3Row 768000 128000 0x14 1150,
    pll3Row 806400 128000 0x15 1175,
    pll3Row 844800 128000 0x16 1225,
    pll3Row 883200 128000 0x17 1250,
    pll3Row 921600 128000 0x18 1275,
    pll3Row 960000 128000 0x19 1275,
    pll3Row 998400 128000 0x1A 1300,
    pll3Row 1036800 160000 0x1B 1300,
    pll3Row 1075200 160000 0x1C 1300,
    pll3Row 1113600 160000 0x1D 1350,
    pll3Row 1152000 160000 0x1E 1400,
    pll3Row 1190400 192000 0x1F 1425,
    ⟨0, .pll0, 0, 0, 0, 0, 0, 0, 0⟩]

def acpuFreqTbl998 : FreqTable where
  rows := acpuFreqRows998
  long := by decide
  monotone := by decide
  lowest := by decide

def slowDriver : Driver :=
  ⟨⟨19200, .tcxo, 0, 0, 14000, 0, 0, 1000, 0⟩, true, 1000, ⟨0, 0, 0, 0⟩, [], 0, 0⟩

/-- The processor idles between two calls of the governor, and the regulator refuses to drop the
voltage. -/
def idleCalls : List Call :=
  [⟨768000, .cpufreq, ⟨fun _ => 0, fun _ => 0⟩⟩, ⟨245760, .swfi, ⟨fun _ => 0, fun _ => 0⟩⟩,
    ⟨768000, .swfi, ⟨fun _ => 0, fun _ => 0⟩⟩,
    ⟨384000, .cpufreq, ⟨fun _ => -5, fun _ => 0⟩⟩]

theorem never_undervolts_idle :
    (∀ selection ∈ (acpuclkRun acpuFreqTbl998 slowDriver idleCalls).selections,
        selection.speed.vdd ≤ selection.appliedVdd) ∧
      (acpuclkRun acpuFreqTbl998 slowDriver idleCalls).currentSpeed.vdd ≤
        (acpuclkRun acpuFreqTbl998 slowDriver idleCalls).appliedVdd :=
  Paired.never_undervolts
    (.governor rfl (.down (.inl rfl) (by decide +kernel)
      (.back (.inl rfl) (by decide +kernel) (.governor rfl .done))))
    (by decide) (by decide) (by decide) rfl

end StreakKernel.AcpuClock
