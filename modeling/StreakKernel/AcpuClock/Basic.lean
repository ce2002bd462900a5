import Mathlib.Data.List.TakeWhile

/-!
# Switching the processor clock of the QSD8x50

The driver of `arch/arm/mach-msm/acpuclock-8x50.c` without `CONFIG_MSM_CPU_AVS`. The
state has the clock registers, the voltage that the regulator applied last, and all clock
selections with the voltage of their moment. Busy waits and delays are left out.
-/

namespace StreakKernel.AcpuClock

inductive Pll where
  | tcxo
  | pll0
  | pll1
  | pll2
  | pll3
  deriving DecidableEq, Repr

/-- A row of the frequency table, `struct clkctl_acpu_speed`. -/
structure Speed where
  acpuclkKhz : ℕ
  pll : Pll
  acpuclkSrcSel : BitVec 32
  acpuclkSrcDiv : BitVec 32
  axiclkKhz : BitVec 32
  scCoreSrcSelMask : BitVec 32
  scLValue : BitVec 32
  vdd : ℤ
  lpj : ℕ
  deriving DecidableEq, Repr

/-- The rows before the terminator, whose frequency is zero. -/
def liveRows (rows : List Speed) : List Speed :=
  rows.takeWhile fun speed => speed.acpuclkKhz != 0

/-- A frequency table whose voltages are non-decreasing in the frequency and whose
row of PLL0 has the lowest voltage. -/
structure FreqTable where
  rows : List Speed
  long : 3 ≤ (liveRows rows).length
  monotone : ∀ slow ∈ liveRows rows, ∀ fast ∈ liveRows rows,
    slow.acpuclkKhz ≤ fast.acpuclkKhz → slow.vdd ≤ fast.vdd
  lowest : ∀ speed ∈ liveRows rows, ((liveRows rows).get ⟨2, long⟩).vdd ≤ speed.vdd

namespace FreqTable

variable (table : FreqTable)

def live : List Speed :=
  liveRows table.rows

/-- The row `AXI_S`, which power collapse selects. -/
def axiS : Speed :=
  table.live.get ⟨1, Nat.lt_of_lt_of_le (by decide) table.long⟩

def pll0S : Speed :=
  table.live.get ⟨2, table.long⟩

theorem pll0S_mem : table.pll0S ∈ table.live :=
  List.get_mem _ _

theorem pll0S_vdd_le {speed : Speed} (mem : speed ∈ table.live) : table.pll0S.vdd ≤ speed.vdd :=
  table.lowest speed mem

end FreqTable

structure Registers where
  spssClkCntl : BitVec 32
  spssClkSel : BitVec 32
  scpllCtl : BitVec 32
  scpllFsmCtlExt : BitVec 32
  deriving DecidableEq, Repr

/-- The modes in which the scorpion PLL changes its frequency. -/
inductive FreqSwitch where
  | shotSwitch
  | hopSwitch
  | simpleSlew
  | complexSlew
  deriving DecidableEq, Repr

def FreqSwitch.code : FreqSwitch → BitVec 32
  | shotSwitch => 4
  | hopSwitch => 5
  | simpleSlew => 6
  | complexSlew => 7

def clampLval (lval : BitVec 32) : BitVec 32 :=
  let capped := if 33 < lval then 33 else lval
  if capped < 10 then 10 else capped

def scpllSetFreq (lval : BitVec 32) (freqSwitch : FreqSwitch) (registers : Registers) :
    Registers :=
  let cleared := registers.scpllFsmCtlExt &&& ~~~((0x3f : BitVec 32) <<< 3)
  let multiplied := cleared ||| (clampLval lval <<< 3)
  let slewed :=
    if freqSwitch = .simpleSlew then multiplied ||| ((0x1 : BitVec 32) <<< 9) else multiplied
  { registers with
    scpllFsmCtlExt := (slewed &&& ~~~0x3) ||| freqSwitch.code
    scpllCtl := registers.scpllCtl ||| 0x7 }

def scpllAppsEnable (state : Bool) (registers : Registers) : Registers :=
  let standby := (registers.scpllCtl &&& ~~~0x7) ||| 0x2
  { registers with
    scpllCtl := if state then standby ||| 0x7 else standby &&& ~~~0x7 }

/-- The divider mux: the source that is not in use is configured, then selected. -/
def configMux (speed : Speed) (registers : Registers) : Registers :=
  if registers.spssClkSel &&& 0x1 = 0 then
    { registers with
      spssClkCntl := (registers.spssClkCntl &&& ~~~((0x7 : BitVec 32) <<< 4 ||| 0xf))
        ||| (speed.acpuclkSrcSel <<< 4) ||| speed.acpuclkSrcDiv
      spssClkSel := registers.spssClkSel ||| 0x1 }
  else
    { registers with
      spssClkCntl := (registers.spssClkCntl &&&
        ~~~((0x7 : BitVec 32) <<< 12 ||| (0xf : BitVec 32) <<< 8))
        ||| (speed.acpuclkSrcSel <<< 12) ||| (speed.acpuclkSrcDiv <<< 8)
      spssClkSel := registers.spssClkSel &&& ~~~0x1 }

/-- The register writes of `config_pll`. -/
def selectSource (speed : Speed) (registers : Registers) : Registers :=
  let sourced :=
    if speed.pll = .pll3 then scpllSetFreq speed.scLValue .hopSwitch registers
    else if speed.scCoreSrcSelMask = 0 then configMux speed registers
    else registers
  { sourced with
    spssClkSel := (sourced.spssClkSel &&& ~~~((0x3 : BitVec 32) <<< 1)) |||
      (speed.scCoreSrcSelMask <<< 1) }

/-- One `config_pll` step, with the voltage at which it was made. -/
structure Selection where
  speed : Speed
  appliedVdd : ℤ
  deriving DecidableEq, Repr

/-- `drv_state` and what the driver does to the machine. -/
structure Driver where
  currentSpeed : Speed
  /-- Whether the board has installed `acpu_set_vdd`. -/
  regulated : Bool
  appliedVdd : ℤ
  registers : Registers
  selections : List Selection
  loopsPerJiffy : ℕ
  /-- The last rate voted for by `ebi1_clk_set_min_rate`. -/
  axiMinRate : BitVec 32
  deriving DecidableEq, Repr

structure Answers where
  acpuSetVdd : ℤ → ℤ
  ebi1ClkSetMinRate : BitVec 32 → ℤ

namespace Driver

def configPll (speed : Speed) (driver : Driver) : Driver :=
  { driver with
    registers := selectSource speed driver.registers
    selections := driver.selections ++ [⟨speed, driver.appliedVdd⟩] }

def appsEnable (state : Bool) (driver : Driver) : Driver :=
  { driver with registers := scpllAppsEnable state driver.registers }

/-- A regulator that answers an error keeps its voltage. Without one the default voltage is
assumed to be enough. -/
def acpuclkSetVddLevel (answers : Answers) (vdd : ℤ) (driver : Driver) : ℤ × Driver :=
  if driver.regulated then
    if answers.acpuSetVdd vdd = 0 then (0, { driver with appliedVdd := vdd })
    else (answers.acpuSetVdd vdd, driver)
  else (0, driver)

end Driver

inductive SetrateReason where
  | cpufreq
  | swfi
  | pc
  | init
  deriving DecidableEq, Repr

/-- One call of `acpuclk_set_rate`, with the answers of its callees. -/
structure Call where
  rate : ℕ
  reason : SetrateReason
  answers : Answers

/-- The search of `acpuclk_set_rate` through the rows before the terminator. -/
def findSpeed (rate : ℕ) : List Speed → Option Speed
  | [] => none
  | speed :: rest =>
    if speed.acpuclkKhz = 0 then none
    else if speed.acpuclkKhz = rate then some speed
    else findSpeed rate rest

/-- Before the switch, a governor raises the voltage, and a return from power collapse steps up to
PLL0. -/
def prepare (table : FreqTable) (call : Call) (start target : Speed) (driver : Driver) :
    ℤ × Driver :=
  if call.reason = .cpufreq then
    if start.vdd < target.vdd then driver.acpuclkSetVddLevel call.answers target.vdd
    else (0, driver)
  else if call.reason = .pc ∧ call.rate ≠ table.axiS.acpuclkKhz then
    (0, driver.configPll table.pll0S)
  else (0, driver)

/-- The switch itself. A change between two rates of PLL3 passes through PLL0. -/
def switchSource (table : FreqTable) (start target : Speed) (driver : Driver) : Driver :=
  if start.pll ≠ .pll3 ∧ target.pll ≠ .pll3 then
    driver.configPll target
  else if start.pll ≠ .pll3 ∧ target.pll = .pll3 then
    (driver.appsEnable true).configPll target
  else if start.pll = .pll3 ∧ target.pll ≠ .pll3 then
    (driver.configPll target).appsEnable false
  else
    (driver.configPll table.pll0S).configPll target

/-- The vote for the bus clock, whose failure is only reported. -/
def voteAxi (answers : Answers) (start target : Speed) (driver : Driver) : Driver :=
  if start.axiclkKhz ≠ target.axiclkKhz then
    if answers.ebi1ClkSetMinRate (target.axiclkKhz * 1000) < 0 then driver
    else { driver with axiMinRate := target.axiclkKhz * 1000 }
  else driver

/-- The drop of the voltage after the switch, whose failure is only reported. -/
def dropVdd (answers : Answers) (start target : Speed) (driver : Driver) : Driver :=
  if target.vdd < start.vdd then (driver.acpuclkSetVddLevel answers target.vdd).2
  else driver

def settle (call : Call) (start target : Speed) (driver : Driver) : Driver :=
  let updated := { driver with currentSpeed := target, loopsPerJiffy := target.lpj }
  if call.reason = .swfi then updated
  else
    let voted := voteAxi call.answers start target updated
    if call.reason = .pc then voted
    else dropVdd call.answers start target voted

def einval : ℤ := 22

def acpuclkSetRate (table : FreqTable) (driver : Driver) (call : Call) : ℤ × Driver :=
  let start := driver.currentSpeed
  if call.rate = start.acpuclkKhz then (0, driver)
  else
    match findSpeed call.rate table.rows with
    | none => (-einval, driver)
    | some target =>
      let prepared := prepare table call start target driver
      if prepared.1 ≠ 0 then prepared
      else (0, settle call start target (switchSource table start target prepared.2))

end StreakKernel.AcpuClock
