import Mathlib

/-!
# Counting interrupts on a PCI bus

The interrupt pins of PCI devices, `hw/pci.c`.  A root bus counts for each of its lines the pins
that are raised, and a device that sets `PCI_COMMAND_INTX_DISABLE` takes its pins out of the count.
The counts are changed by increments: when a pin changes, and when a write to the command register
changes the bit.

A write that reaches the second byte of the command register but not the first one changes the bit
without an increment, and so does a reset: it clears `irq_state` before it lowers the pins.

**Main results:**
- `pciSetIrq_keeps`, `pciDefaultWriteConfig_keeps`, `resetIntx_keeps`: what each step adds to the
  counts
- `reachable_accounted`: the counts are right in every run without such writes and resets
-/

namespace Qemu.Pci

open BitVec Finset List Function

/-! ## Devices and buses -/

/-- The masks of the configuration space, and the places of the MSI and MSI-X capabilities. -/
structure PCIDevice where
  wmask : ℕ → BitVec 8
  w1cmask : ℕ → BitVec 8
  msiCap : Option ℕ
  msixCap : Option ℕ
  masks_disjoint : ∀ i, wmask i &&& w1cmask i = 0
  msiCap_ge : ∀ cap, msiCap = some cap → 0x40 ≤ cap
  msixCap_ge : ∀ cap, msixCap = some cap → 0x40 ≤ cap

/-- Devices behind bridges.  A device has the bus of the bridge that it is behind, or the root bus;
`mapIrq` is the `map_irq` of that bus. -/
structure Topology (n : ℕ) where
  device : Fin n → PCIDevice
  parentDev : Fin n → Option (Fin n)
  mapIrq : Fin n → ℕ → ℕ
  depth : Fin n → ℕ
  depth_lt : ∀ d parent, parentDev d = some parent → depth parent < depth d

/-- What changes in a device. -/
structure DeviceState where
  config : ℕ → BitVec 8
  irqState : BitVec 8

/-- The devices, and the counts and the levels of the lines of the root bus. -/
structure State (n : ℕ) where
  dev : Fin n → DeviceState
  irqCount : ℕ → ℤ
  level : ℕ → Bool

def pciGetWord (config : ℕ → BitVec 8) (i : ℕ) : BitVec 16 := config (i + 1) ++ config i

def pciSetWord (config : ℕ → BitVec 8) (i : ℕ) (word : BitVec 16) : ℕ → BitVec 8 :=
  update (update config i (word.setWidth 8)) (i + 1) ((word >>> 8).setWidth 8)

/-! ## Interrupts -/

section Functions

variable {n : ℕ} (t : Topology n)

/-- `pci_irq_state`. -/
def pciIrqState (d : DeviceState) (irqNum : Fin 4) : ℤ :=
  ((d.irqState >>> irqNum.val &&& 1#8).toNat : ℤ)

/-- `pci_set_irq_state`. -/
def pciSetIrqState (d : DeviceState) (irqNum : Fin 4) (level : Bool) : DeviceState :=
  { d with irqState := d.irqState &&& ~~~(1#8 <<< irqNum.val) |||
      (if level = true then 1#8 else 0#8) <<< irqNum.val }

/-- The loop of `pci_change_irq_level` that goes up to the root bus. -/
def routeLoop : ℕ → Fin n → ℕ → ℕ
  | 0, _, irqNum => irqNum
  | fuel + 1, d, irqNum =>
    let irqNum := t.mapIrq d irqNum
    match t.parentDev d with
    | none => irqNum
    | some parent => routeLoop fuel parent irqNum

/-- The line of the root bus to which a pin is routed. -/
def route (d : Fin n) (irqNum : Fin 4) : ℕ := routeLoop t (t.depth d + 1) d irqNum.val

/-- `pci_change_irq_level`. -/
def pciChangeIrqLevel (s : State n) (d : Fin n) (irqNum : Fin 4) (change : ℤ) : State n :=
  let line := route t d irqNum
  let count := s.irqCount line + change
  { s with
    irqCount := update s.irqCount line count
    level := update s.level line (decide (count ≠ 0)) }

/-- `pci_update_irq_status`. -/
def pciUpdateIrqStatus (d : DeviceState) : DeviceState :=
  let status := if d.irqState ≠ 0 then d.config 6 ||| 0x08#8 else d.config 6 &&& ~~~0x08#8
  { d with config := update d.config 6 status }

/-- `pci_irq_disabled`. -/
def pciIrqDisabled (d : DeviceState) : Bool := pciGetWord d.config 4 &&& 0x400#16 ≠ 0

def State.setDev (s : State n) (d : Fin n) (ds : DeviceState) : State n :=
  { s with dev := update s.dev d ds }

/-- `pci_set_irq`. -/
def pciSetIrq (s : State n) (d : Fin n) (irqNum : Fin 4) (level : Bool) : State n :=
  let change := (if level = true then 1 else 0) - pciIrqState (s.dev d) irqNum
  if change = 0 then s
  else
    let s := s.setDev d (pciUpdateIrqStatus (pciSetIrqState (s.dev d) irqNum level))
    if pciIrqDisabled (s.dev d) = true then s
    else pciChangeIrqLevel t s d irqNum change

/-- `pci_update_irq_disabled`. -/
def pciUpdateIrqDisabled (s : State n) (d : Fin n) (wasIrqDisabled : Bool) : State n :=
  let disabled := pciIrqDisabled (s.dev d)
  if disabled = wasIrqDisabled then s
  else (finRange 4).foldl (fun s i =>
    let state := pciIrqState (s.dev d) i
    pciChangeIrqLevel t s d i (if disabled = true then -state else state)) s

/-- `pci_device_deassert_intx`. -/
def pciDeviceDeassertIntx (s : State n) (d : Fin n) : State n :=
  (finRange 4).foldl (fun s i => pciSetIrq t s d i false) s

/-! ## Configuration space -/

/-- One byte of a write, with the masks. -/
def writeByte (dev : PCIDevice) (config : ℕ → BitVec 8) (addr : ℕ) (val : BitVec 8) : BitVec 8 :=
  (config addr &&& ~~~dev.wmask addr ||| val &&& dev.wmask addr) &&& ~~~(val &&& dev.w1cmask addr)

/-- The loop of `pci_default_write_config`. -/
def writeBytes (dev : PCIDevice) : ℕ → ℕ → BitVec 32 → (ℕ → BitVec 8) → ℕ → BitVec 8
  | 0, _, _, config => config
  | l + 1, addr, val, config =>
    writeBytes dev l (addr + 1) (val >>> 8)
      (update config addr (writeByte dev config addr (val.setWidth 8)))

def rangeCoversByte (offset len byte : ℕ) : Bool := offset ≤ byte && byte < offset + len

def rangesOverlap (first₁ len₁ first₂ len₂ : ℕ) : Bool :=
  first₁ < first₂ + len₂ && first₂ < first₁ + len₁

def msiCapSizeof (flags : BitVec 16) : ℕ :=
  match flags.getLsbD 8, flags.getLsbD 7 with
  | true, true => 0x18
  | false, true => 0x0e
  | true, false => 0x14
  | false, false => 0x0a

/-- `msi_write_config`, up to the delivery of pending messages. -/
def msiWriteConfig (s : State n) (d : Fin n) (addr len : ℕ) : State n :=
  match (t.device d).msiCap with
  | none => s
  | some cap =>
    let flags := pciGetWord (s.dev d).config (cap + 2)
    if rangesOverlap addr len cap (msiCapSizeof flags) = false then s
    else if flags &&& 1#16 = 0 then s
    else
      let s := pciDeviceDeassertIntx t s d
      let logNumVecs := (flags &&& 0x70#16) >>> 4
      let logMaxVecs := (flags &&& 0x0e#16) >>> 1
      if logMaxVecs < logNumVecs then
        let flags := flags &&& ~~~0x70#16 ||| logMaxVecs <<< 4
        s.setDev d { s.dev d with config := pciSetWord (s.dev d).config (cap + 2) flags }
      else s

/-- `msix_write_config`, up to the delivery of pending messages. -/
def msixWriteConfig (s : State n) (d : Fin n) (addr len : ℕ) : State n :=
  match (t.device d).msixCap with
  | none => s
  | some cap =>
    if rangeCoversByte addr len (cap + 3) = false then s
    else if (s.dev d).config (cap + 3) &&& 0x80#8 = 0 then s
    else pciDeviceDeassertIntx t s d

/-- `pci_default_write_config`.  The mappings of memory regions are left out. -/
def pciDefaultWriteConfig (s : State n) (d : Fin n) (addr : ℕ) (val : BitVec 32)
    (l : ℕ) : State n :=
  let wasIrqDisabled := pciIrqDisabled (s.dev d)
  let s := s.setDev d { s.dev d with config := writeBytes (t.device d) l addr val (s.dev d).config }
  let s := if rangeCoversByte addr l 4 = true then pciUpdateIrqDisabled t s d wasIrqDisabled else s
  msixWriteConfig t (msiWriteConfig t s d addr l) d addr l

/-! ## Resets -/

def clearWritable (dev : PCIDevice) (config : ℕ → BitVec 8) (i : ℕ) : ℕ → BitVec 8 :=
  update config i (config i &&& ~~~(dev.wmask i ||| dev.w1cmask i))

/-- `msi_reset` on the flags of the capability. -/
def msiReset (dev : PCIDevice) (config : ℕ → BitVec 8) : ℕ → BitVec 8 :=
  match dev.msiCap with
  | none => config
  | some cap => pciSetWord config (cap + 2) (pciGetWord config (cap + 2) &&& ~~~0x71#16)

/-- `msix_reset` on the control byte of the capability. -/
def msixReset (dev : PCIDevice) (config : ℕ → BitVec 8) : ℕ → BitVec 8 :=
  match dev.msixCap with
  | none => config
  | some cap => update config (cap + 3) (config (cap + 3) &&& ~~~dev.wmask (cap + 3))

/-- The configuration space after a reset, apart from the base address registers. -/
def resetConfig (dev : PCIDevice) (config : ℕ → BitVec 8) : ℕ → BitVec 8 :=
  let config := clearWritable dev (clearWritable dev config 4) 5
  let config := clearWritable dev (clearWritable dev config 6) 7
  let config := update (update config 0x0c 0) 0x3c 0
  msixReset dev (msiReset dev config)

/-- `pci_device_reset` after `qdev_reset_all`. -/
def resetIntx (s : State n) (d : Fin n) : State n :=
  let s := s.setDev d (pciUpdateIrqStatus { s.dev d with irqState := 0 })
  let s := pciDeviceDeassertIntx t s d
  s.setDev d { s.dev d with config := resetConfig (t.device d) (s.dev d).config }

/-- `pci_device_reset`.  The device may set its pins, and `qdev_reset_all` resets the devices behind
a bridge. -/
def pciDeviceReset (pins : Fin n → List (Fin 4 × Bool)) : ℕ → State n → Fin n → State n
  | 0, s, _ => s
  | fuel + 1, s, d =>
    let s := (pins d).foldl (fun s e => pciSetIrq t s d e.1 e.2) s
    let s := ((finRange n).filter fun c => t.parentDev c = some d).foldl
      (pciDeviceReset pins fuel) s
    resetIntx t s d

end Functions

/-! ## Runs -/

/-- A pin is set, the guest writes configuration space, or the device is reset. -/
inductive Event (n : ℕ) where
  | setIrq (d : Fin n) (irqNum : Fin 4) (level : Bool)
  | writeConfig (d : Fin n) (addr : ℕ) (val : BitVec 32) (l : ℕ)
  | reset (d : Fin n)

/-- The step of an event.  A reset of a bridge is a step for each device, after steps for the pins
that are set (`pciDeviceReset_reaches`). -/
def step {n : ℕ} (t : Topology n) (s : State n) : Event n → State n
  | .setIrq d irqNum level => pciSetIrq t s d irqNum level
  | .writeConfig d addr val l => pciDefaultWriteConfig t s d addr val l
  | .reset d => resetIntx t s d

/-- Writes have one to four bytes. -/
def Event.Valid {n : ℕ} : Event n → Prop
  | .writeConfig _ _ _ l => 1 ≤ l ∧ l ≤ 4
  | _ => True

/-- No pin is raised and no line is up.  The configuration spaces are arbitrary. -/
def State.Initial {n : ℕ} (s : State n) : Prop :=
  (∀ d, (s.dev d).irqState = 0) ∧ (∀ line, s.irqCount line = 0) ∧ ∀ line, s.level line = false

/-- The states that are reached with steps that meet a condition. -/
inductive Reachable {n : ℕ} (t : Topology n) (Allowed : State n → Event n → Prop) : State n → Prop
  | initial {s} : s.Initial → Reachable t Allowed s
  | step {s e} : Reachable t Allowed s → e.Valid → Allowed s e → Reachable t Allowed (step t s e)

section Accounting

variable {n : ℕ} (t : Topology n)

/-- A pin that raises a line: its bit is set, and the device does not disable its interrupts. -/
def Raises (s : State n) (line : ℕ) (pin : Fin n × Fin 4) : Prop :=
  (s.dev pin.1).irqState.getLsbD pin.2 = true ∧ pciIrqDisabled (s.dev pin.1) = false ∧
    route t pin.1 pin.2 = line

instance (s : State n) (line : ℕ) : DecidablePred (Raises t s line) := fun _ =>
  inferInstanceAs (Decidable (_ ∧ _ ∧ _))

/-- The count of every line is the number of pins that raise it, and its level is their OR. -/
def Accounted (s : State n) : Prop :=
  ∀ line, s.irqCount line = ((univ.filter (Raises t s line)).card : ℤ) ∧
    (s.level line = true ↔ ∃ pin, Raises t s line pin)

/-- Steps that keep the counts.  A write to the second byte of the command register and not the
first leaves the bit, or no pin is raised; a device is reset with its interrupts disabled or no pin
raised. -/
def Careful (s : State n) : Event n → Prop
  | .setIrq _ _ _ => True
  | .writeConfig d addr val _ =>
    addr = 5 → (s.dev d).irqState &&& 0x0f#8 = 0 ∨
      (((t.device d).wmask 5).getLsbD 2 = true → val.getLsbD 2 = ((s.dev d).config 5).getLsbD 2) ∧
      (((t.device d).w1cmask 5).getLsbD 2 = true →
        ¬ (val.getLsbD 2 = true ∧ ((s.dev d).config 5).getLsbD 2 = true))
  | .reset d => (s.dev d).irqState &&& 0x0f#8 = 0 ∨ pciIrqDisabled (s.dev d) = true

instance (s : State n) : DecidablePred (Careful t s)
  | .setIrq _ _ _ => isTrue trivial
  | .writeConfig _ _ _ _ => inferInstanceAs (Decidable (_ → _ ∨ _ ∧ _))
  | .reset _ => inferInstanceAs (Decidable (_ ∨ _))

/-! ## Bits -/

variable (ds : DeviceState)

lemma pciIrqState_eq (i : Fin 4) :
    pciIrqState ds i = if ds.irqState.getLsbD i = true then 1 else 0 := by
  have hone : ds.irqState >>> i.val &&& 1#8 = if ds.irqState.getLsbD i =
      true then 1#8 else 0#8 := by
    have h := and_twoPow (ds.irqState >>> i.val) 0
    exact h
  rw [pciIrqState, hone]
  split_ifs <;> rfl

lemma getLsbD_pciSetIrqState (i j : Fin 4) (level : Bool) :
    (pciSetIrqState ds i level).irqState.getLsbD j = if j =
      i then level else ds.irqState.getLsbD j := by
  by_cases hij : j = i
  · subst hij
    cases level <;> simp [pciSetIrqState, show j.val < 8 by omega]
  have hshift : ∀ b : BitVec 8, (b = 0#8 ∨ b = 1#8) → (b <<< i.val).getLsbD j.val = false := by
    rintro b (rfl | rfl)
    · simp
    rw [getLsbD_shiftLeft]
    by_cases hlt : j.val < i.val
    · simp [hlt]
    · simp [show j.val - i.val ≠ 0 by omega]
  have hbit : (if level = true then 1#8 else 0#8) = 0#8 ∨
      (if level = true then 1#8 else 0#8) = 1#8 := by
    cases level <;> simp
  rw [pciSetIrqState, if_neg hij, getLsbD_or, getLsbD_and, getLsbD_not,
    hshift _ (.inr rfl), hshift _ hbit]
  simp [show j.val < 8 by omega]

/-- The bit `PCI_COMMAND_INTX_DISABLE` is in the second byte of the command register. -/
lemma pciIrqDisabled_eq : pciIrqDisabled ds = (ds.config 5).getLsbD 2 := by
  have hmask : 0x400#16 = twoPow 16 10 := by decide
  have hbit : (pciGetWord ds.config 4).getLsbD 10 = (ds.config 5).getLsbD 2 := by
    rw [pciGetWord, getLsbD_append]
    rfl
  rw [pciIrqDisabled, hmask, and_twoPow, hbit]
  cases (ds.config 5).getLsbD 2 <;> decide

/-! ## The pins of one device -/

/-- The number of pins of a device that raise a line. -/
def pinSum (d : Fin n) (ds : DeviceState) (line : ℕ) : ℤ :=
  ∑ p : Fin 4, if ds.irqState.getLsbD p = true ∧ pciIrqDisabled ds = false ∧
    route t d p = line then 1
    else 0

variable {t} {s s' s'' : State n} {d : Fin n}

lemma pinSum_congr {ds ds' : DeviceState} (hirq : ds'.irqState = ds.irqState)
    (hconfig : ds'.config 5 = ds.config 5) : pinSum t d ds' = pinSum t d ds := by
  funext line
  rw [pinSum, pinSum, hirq, pciIrqDisabled_eq, pciIrqDisabled_eq, hconfig]

lemma pinSum_of_disabled {ds : DeviceState} (h : pciIrqDisabled ds = true) (line : ℕ) :
    pinSum t d ds line = 0 := by
  simp [pinSum, h]

lemma pinSum_of_no_pins (ds : DeviceState) (h : ds.irqState &&& 0x0f#8 = 0) (line : ℕ) :
    pinSum t d ds line = 0 := by
  refine Finset.sum_eq_zero fun p _ => if_neg fun hp => ?_
  have hbit := congrArg (fun b => getLsbD b p.val) h
  have hmask : ∀ p : Fin 4, (0x0f#8).getLsbD p.val = true := by decide
  rw [getLsbD_and, hp.1, hmask p] at hbit
  exact absurd hbit (by simp)

def LevelOk (s : State n) : Prop := ∀ line, s.level line = decide (s.irqCount line ≠ 0)

/-- Changes of one device that add to the counts what they change. -/
structure Keeps (t : Topology n) (d : Fin n) (s s' : State n) : Prop where
  others : ∀ x, x ≠ d → s'.dev x = s.dev x
  counts : ∀ line, s'.irqCount line - pinSum t d (s'.dev d) line =
    s.irqCount line - pinSum t d (s.dev d) line
  levels : LevelOk s → LevelOk s'

lemma Keeps.refl (t : Topology n) (d : Fin n) (s : State n) : Keeps t d s s :=
  ⟨fun _ _ => rfl, fun _ => rfl, id⟩

lemma Keeps.trans (h : Keeps t d s s') (h' : Keeps t d s' s'') : Keeps t d s s'' :=
  ⟨fun x hx => (h'.others x hx).trans (h.others x hx),
    fun line => (h'.counts line).trans (h.counts line), fun hl => h'.levels (h.levels hl)⟩

lemma Keeps.foldl {α : Type} {f : State n → α → State n} (hf : ∀ s a, Keeps t d s (f s a))
    (l : List α) : ∀ s, Keeps t d s (l.foldl f s) := by
  induction l with
  | nil => exact fun s => Keeps.refl t d s
  | cons a l ih => exact fun s => (hf s a).trans (ih _)

@[simp] lemma State.dev_setDev (s : State n) (d : Fin n) (ds : DeviceState) :
    (s.setDev d ds).dev d = ds := update_self _ _ _

lemma Keeps.setDev {ds : DeviceState} (h : pinSum t d ds = pinSum t d (s.dev d)) :
    Keeps t d s (s.setDev d ds) := by
  refine ⟨fun x hx => update_of_ne hx _ _, fun line => ?_, fun hl => hl⟩
  rw [State.dev_setDev, h]
  rfl

/-- The counts and the levels are right. -/
def Invariant (t : Topology n) (s : State n) : Prop :=
  (∀ line, s.irqCount line = ∑ d, pinSum t d (s.dev d) line) ∧ LevelOk s

lemma Invariant.keeps (h : Invariant t s) (hk : Keeps t d s s') : Invariant t s' := by
  refine ⟨fun line => ?_, hk.levels h.2⟩
  have hcount := hk.counts line
  have hothers : ∑ x ∈ univ.erase d, pinSum t x (s'.dev x) line =
      ∑ x ∈ univ.erase d, pinSum t x (s.dev x) line :=
    sum_congr rfl fun x hx => by rw [hk.others x (ne_of_mem_erase hx)]
  have hold := h.1 line
  rw [← add_sum_erase _ _ (mem_univ d)] at hold ⊢
  rw [hothers]
  omega

/-! ## Setting pins -/

lemma LevelOk.change (h : LevelOk s) (p : Fin 4) (change : ℤ) :
    LevelOk (pciChangeIrqLevel t s d p change) := by
  intro line
  by_cases hline : line = route t d p
  · subst hline
    simp [pciChangeIrqLevel]
  · simp [pciChangeIrqLevel, hline, h line]

lemma irqCount_change (s : State n) (d : Fin n) (p : Fin 4) (change : ℤ) (line : ℕ) :
    (pciChangeIrqLevel t s d p change).irqCount line =
      s.irqCount line + if route t d p = line then change else 0 := by
  by_cases hline : line = route t d p
  · subst hline
    simp [pciChangeIrqLevel]
  · simp [pciChangeIrqLevel, hline, Ne.symm hline]

lemma pinSum_setPin {ds ds' : DeviceState} {p : Fin 4} {level : Bool}
    (hpins : ∀ q : Fin 4, ds'.irqState.getLsbD q = if q = p then level else ds.irqState.getLsbD q)
    (hdis : pciIrqDisabled ds' = pciIrqDisabled ds)
    (henabled : pciIrqDisabled ds = false) (line : ℕ) :
    pinSum t d ds' line = pinSum t d ds line + if route t d p = line then
      (if level = true then (1 : ℤ) else 0) - (if ds.irqState.getLsbD p =
        true then 1 else 0) else 0 := by
  rw [pinSum, pinSum, ← add_sum_erase _ _ (mem_univ p), ← add_sum_erase _ _ (mem_univ p)]
  have hothers : ∀ q ∈ univ.erase p,
      (if ds'.irqState.getLsbD q = true ∧ pciIrqDisabled ds' = false ∧
        route t d q = line then (1 : ℤ)
        else 0) =
      if ds.irqState.getLsbD q = true ∧ pciIrqDisabled ds = false ∧ route t d q = line then 1
        else 0 := by
    intro q hq
    rw [hpins q, if_neg (ne_of_mem_erase hq), hdis]
  rw [sum_congr rfl hothers, hpins p, if_pos rfl, hdis, henabled]
  by_cases hline : route t d p = line
  · subst hline
    rcases level with _ | _ <;> rcases ds.irqState.getLsbD p with _ | _
    all_goals
      simp
      try ring
  · simp [hline]

/-- `pci_set_irq` adds the change of its pin. -/
lemma pciSetIrq_keeps (s : State n) (d : Fin n) (p : Fin 4) (level : Bool) :
    Keeps t d s (pciSetIrq t s d p level) := by
  rw [pciSetIrq]
  simp only [pciIrqState_eq]
  set bit := (s.dev d).irqState.getLsbD p
  by_cases hchange : (if level = true then (1 : ℤ) else 0) - (if bit = true then 1 else 0) = 0
  · rw [if_pos hchange]
    exact Keeps.refl t d s
  rw [if_neg hchange]
  set ds := pciUpdateIrqStatus (pciSetIrqState (s.dev d) p level)
  have hself : (s.setDev d ds).dev d = ds := s.dev_setDev d ds
  have hconfig : ds.config 5 = (s.dev d).config 5 := rfl
  have hdis : pciIrqDisabled ds = pciIrqDisabled (s.dev d) := by
    rw [pciIrqDisabled_eq, pciIrqDisabled_eq, hconfig]
  have hpins : ∀ q : Fin 4, ds.irqState.getLsbD q =
      if q = p then level else (s.dev d).irqState.getLsbD q :=
    fun q => getLsbD_pciSetIrqState (s.dev d) p q level
  rw [hself, hdis]
  by_cases hdisabled : pciIrqDisabled (s.dev d) = true
  · rw [if_pos hdisabled]
    refine Keeps.setDev (funext fun line => ?_)
    rw [pinSum_of_disabled hdisabled, pinSum_of_disabled (hdis.trans hdisabled)]
  rw [if_neg hdisabled]
  refine ⟨fun x hx => update_of_ne hx _ _, fun line => ?_, fun hl => LevelOk.change hl p _⟩
  have hdev : (pciChangeIrqLevel t (s.setDev d ds) d p ((if level = true then 1 else 0) -
      if bit = true then 1 else 0)).dev d = ds := hself
  rw [irqCount_change, hdev, pinSum_setPin hpins hdis (by simpa using hdisabled) line]
  change s.irqCount line + _ - _ = _
  ring

lemma pciDeviceDeassertIntx_keeps (s : State n) (d : Fin n) :
    Keeps t d s (pciDeviceDeassertIntx t s d) :=
  Keeps.foldl (fun s p => pciSetIrq_keeps s d p false) _ s

/-! ## Writes -/

lemma foldl_change (g : DeviceState → Fin 4 → ℤ) (l : List (Fin 4)) : ∀ s : State n,
    (l.foldl (fun s p => pciChangeIrqLevel t s d p (g (s.dev d) p)) s).dev = s.dev ∧
      (LevelOk s → LevelOk (l.foldl (fun s p => pciChangeIrqLevel t s d p (g (s.dev d) p)) s)) ∧
      ∀ line, (l.foldl (fun s p => pciChangeIrqLevel t s d p (g (s.dev d) p)) s).irqCount line =
        s.irqCount line + (l.map fun p => if route t d p = line then g (s.dev d) p else 0).sum := by
  induction l with
  | nil => exact fun s => ⟨rfl, id, fun line => by simp⟩
  | cons p l ih =>
    intro s
    obtain ⟨hdev, hlevels, hcounts⟩ := ih (pciChangeIrqLevel t s d p (g (s.dev d) p))
    refine ⟨hdev, fun hl => hlevels (hl.change p _), fun line => ?_⟩
    rw [foldl_cons, hcounts, irqCount_change, List.map_cons, List.sum_cons, add_assoc]
    rfl

lemma pinSum_of_enabled {ds : DeviceState} (h : pciIrqDisabled ds = false) (line : ℕ) :
    pinSum t d ds line = ∑ p : Fin 4, if route t d p = line then pciIrqState ds p else 0 := by
  refine sum_congr rfl fun p _ => ?_
  rw [pciIrqState_eq]
  by_cases hline : route t d p = line <;> simp [h, hline]

lemma pciUpdateIrqDisabled_keeps {config : ℕ → BitVec 8} :
    Keeps t d s (pciUpdateIrqDisabled t (s.setDev d { s.dev d with config := config }) d
      (pciIrqDisabled (s.dev d))) := by
  set ds : DeviceState := { s.dev d with config := config }
  have hirq : ∀ p, pciIrqState ds p = pciIrqState (s.dev d) p := fun p => rfl
  rw [pciUpdateIrqDisabled]
  simp only [State.dev_setDev]
  by_cases hsame : pciIrqDisabled ds = pciIrqDisabled (s.dev d)
  · rw [if_pos hsame]
    refine Keeps.setDev (funext fun line => ?_)
    rw [pinSum, pinSum, hsame]
  rw [if_neg hsame]
  obtain ⟨hdev, hlevels, hcounts⟩ := foldl_change (t := t) (d := d) (fun ds' p =>
    if pciIrqDisabled ds = true then -pciIrqState ds' p else pciIrqState ds' p) (finRange 4)
    (s.setDev d ds)
  simp only [← Fin.sum_univ_def] at hcounts
  refine ⟨fun x hx => ?_, fun line => ?_, fun hl => hlevels hl⟩
  · rw [hdev]
    exact update_of_ne hx _ _
  rw [hcounts, hdev, State.dev_setDev]
  change s.irqCount line + _ - _ = _
  have hsum : ∑ p : Fin 4, (if route t d p = line then
      (if pciIrqDisabled ds = true then -pciIrqState ds p else pciIrqState ds p) else 0) =
      pinSum t d ds line - pinSum t d (s.dev d) line := by
    cases hdis : pciIrqDisabled ds with
    | false =>
      have hwas : pciIrqDisabled (s.dev d) = true := by simpa [hdis] using hsame
      rw [pinSum_of_enabled hdis, pinSum_of_disabled hwas]
      simp
    | true =>
      have hwas : pciIrqDisabled (s.dev d) = false := by simpa [hdis] using hsame
      rw [pinSum_of_disabled hdis, pinSum_of_enabled hwas, zero_sub, ← sum_neg_distrib]
      refine sum_congr rfl fun p _ => ?_
      by_cases hline : route t d p = line <;> simp [hline, hirq]
  rw [hsum]
  ring

lemma writeBytes_of_lt (dev : PCIDevice) (l : ℕ) : ∀ (addr : ℕ) (val : BitVec 32)
    (config : ℕ → BitVec 8) {i : ℕ}, i < addr ∨ addr + l ≤ i →
      writeBytes dev l addr val config i = config i := by
  induction l with
  | zero => exact fun _ _ _ _ _ => rfl
  | succ l ih =>
    intro addr val config i hi
    rw [writeBytes, ih _ _ _ (by omega), update_of_ne (by omega)]

lemma msiWriteConfig_keeps (s : State n) (d : Fin n) (addr len : ℕ) :
    Keeps t d s (msiWriteConfig t s d addr len) := by
  rw [msiWriteConfig]
  rcases hcap : (t.device d).msiCap with _ | cap
  · exact Keeps.refl t d s
  have hge := (t.device d).msiCap_ge cap hcap
  dsimp only
  split_ifs
  · exact Keeps.refl t d s
  · exact Keeps.refl t d s
  · refine (pciDeviceDeassertIntx_keeps s d).trans (Keeps.setDev (pinSum_congr rfl ?_))
    simp only [pciSetWord]
    rw [update_of_ne (by omega), update_of_ne (by omega)]
  · exact pciDeviceDeassertIntx_keeps s d

lemma msixWriteConfig_keeps (s : State n) (d : Fin n) (addr len : ℕ) :
    Keeps t d s (msixWriteConfig t s d addr len) := by
  rw [msixWriteConfig]
  rcases (t.device d).msixCap with _ | cap
  · exact Keeps.refl t d s
  dsimp only
  split_ifs
  · exact Keeps.refl t d s
  · exact Keeps.refl t d s
  · exact pciDeviceDeassertIntx_keeps s d

/-- `pci_default_write_config`, with the condition on writes from the second byte of the command
register on. -/
lemma pciDefaultWriteConfig_keeps {addr l : ℕ} {val : BitVec 32} (hl : 1 ≤ l)
    (hcareful : Careful t s (.writeConfig d addr val l)) :
    Keeps t d s (pciDefaultWriteConfig t s d addr val l) := by
  set config := writeBytes (t.device d) l addr val (s.dev d).config with hconfig
  rw [pciDefaultWriteConfig]
  refine Keeps.trans ?_ ((msiWriteConfig_keeps _ d addr l).trans (msixWriteConfig_keeps _ d addr l))
  by_cases hcovers : rangeCoversByte addr l 4 = true
  · rw [if_pos hcovers]
    exact pciUpdateIrqDisabled_keeps
  rw [if_neg hcovers]
  refine Keeps.setDev ?_
  by_cases haddr : addr = 5
  · subst haddr
    rcases hcareful rfl with hpins | ⟨hw, hw1c⟩
    · funext line
      rw [pinSum_of_no_pins (s.dev d) hpins]
      exact pinSum_of_no_pins { s.dev d with config := config } hpins line
    have hbyte : config 5 = writeByte (t.device d) (s.dev d).config 5 (val.setWidth 8) := by
      obtain ⟨l, rfl⟩ := Nat.exists_eq_add_of_le' hl
      rw [hconfig, writeBytes, writeBytes_of_lt _ _ _ _ _ (by omega), update_self]
    have hbit : (config 5).getLsbD 2 = ((s.dev d).config 5).getLsbD 2 := by
      rw [hbyte, writeByte]
      simp only [getLsbD_and, getLsbD_or, getLsbD_not, getLsbD_setWidth]
      revert hw hw1c
      cases ((t.device d).wmask 5).getLsbD 2 <;> cases ((t.device d).w1cmask 5).getLsbD 2 <;>
        cases val.getLsbD 2 <;> cases ((s.dev d).config 5).getLsbD 2 <;> simp
    funext line
    rw [pinSum, pinSum, pciIrqDisabled_eq, pciIrqDisabled_eq, hbit]
  · -- byte 5 is not written
    refine pinSum_congr rfl (writeBytes_of_lt _ _ _ _ _ ?_)
    simp only [rangeCoversByte, Bool.and_eq_true, decide_eq_true_eq] at hcovers
    omega

/-! ## Resets -/

lemma pciSetIrq_of_no_pins (h : (s.dev d).irqState = 0) (p : Fin 4) :
    pciSetIrq t s d p false = s := by
  simp [pciSetIrq, pciIrqState_eq, h]

lemma pciDeviceDeassertIntx_of_no_pins (h : (s.dev d).irqState = 0) :
    pciDeviceDeassertIntx t s d = s := by
  rw [pciDeviceDeassertIntx]
  induction finRange 4 with
  | nil => rfl
  | cons p l ih => rw [foldl_cons, pciSetIrq_of_no_pins h, ih]

lemma resetIntx_keeps (hcareful : Careful t s (.reset d)) : Keeps t d s (resetIntx t s d) := by
  have hbefore : ∀ line, pinSum t d (s.dev d) line = 0 := by
    rcases hcareful with h | h
    · exact pinSum_of_no_pins _ h
    · exact pinSum_of_disabled h
  set ds := pciUpdateIrqStatus { s.dev d with irqState := 0 }
  have hno : ((s.setDev d ds).dev d).irqState = 0 := by
    rw [State.dev_setDev]
    rfl
  have hirq : ds.irqState &&& 0x0f#8 = 0 := zero_and
  have hafter : ∀ config line, pinSum t d { ds with config := config } line = 0 :=
    fun config line =>
    pinSum_of_no_pins { ds with config := config } hirq line
  rw [resetIntx, pciDeviceDeassertIntx_of_no_pins hno]
  have hcleared : Keeps t d s (s.setDev d ds) :=
    Keeps.setDev (funext fun line => by rw [hbefore, hafter ds.config])
  refine hcleared.trans (Keeps.setDev (funext fun line => ?_))
  rw [State.dev_setDev, hafter, hafter ds.config]

/-! ## Whole runs -/

lemma Invariant.initial (h : s.Initial) : Invariant t s := by
  obtain ⟨hirq, hcount, hlevel⟩ := h
  refine ⟨fun line => ?_, fun line => ?_⟩
  · rw [hcount, Finset.sum_eq_zero fun d _ => pinSum_of_no_pins _ (by rw [hirq]; rfl) line]
  · rw [hlevel, hcount]
    rfl

lemma Invariant.step (h : Invariant t s) {e : Event n} (hvalid : e.Valid)
    (hcareful : Careful t s e) :
    Invariant t (step t s e) := by
  cases e with
  | setIrq d irqNum level => exact h.keeps (pciSetIrq_keeps s d irqNum level)
  | writeConfig d addr val l => exact h.keeps (pciDefaultWriteConfig_keeps hvalid.1 hcareful)
  | reset d => exact h.keeps (resetIntx_keeps hcareful)

lemma card_raises (line : ℕ) :
    ((univ.filter (Raises t s line)).card : ℤ) = ∑ d, pinSum t d (s.dev d) line := by
  rw [card_filter, Nat.cast_sum, Fintype.sum_prod_type]
  refine sum_congr rfl fun d _ => sum_congr rfl fun p _ => ?_
  rw [Nat.cast_ite, Nat.cast_one, Nat.cast_zero]
  rfl

lemma Invariant.accounted (h : Invariant t s) : Accounted t s := by
  intro line
  have hcount : s.irqCount line = ((univ.filter (Raises t s line)).card : ℤ) :=
    (h.1 line).trans (card_raises line).symm
  refine ⟨hcount, ?_⟩
  rw [h.2 line, decide_eq_true_iff, hcount, Ne, Nat.cast_eq_zero, card_eq_zero, filter_eq_empty_iff]
  simp

/-- In every run of careful steps the counts and the levels of the lines are right. -/
theorem reachable_accounted (t : Topology n) {s : State n} (h : Reachable t (Careful t) s) :
    Accounted t s := by
  suffices hinv : Invariant t s from hinv.accounted
  induction h with
  | initial hs => exact Invariant.initial hs
  | step _ hvalid hcareful ih => exact ih.step hvalid hcareful

/-- A reset with `qdev_reset_all` is a sequence of steps that set pins and reset single devices. -/
theorem pciDeviceReset_reaches (pins : Fin n → List (Fin 4 × Bool)) (fuel : ℕ) :
    ∀ (s : State n) (d : Fin n), ∃ events : List (Event n), (∀ e ∈ events, e.Valid) ∧
      pciDeviceReset t pins fuel s d = events.foldl (step t) s := by
  induction fuel with
  | zero => exact fun s d => ⟨[], by simp, rfl⟩
  | succ fuel ih =>
    intro s d
    have hchildren : ∀ (l : List (Fin n)) (s : State n), ∃ events : List (Event n),
        (∀ e ∈ events, e.Valid) ∧ l.foldl (pciDeviceReset t pins fuel) s =
        events.foldl (Pci.step t) s := by
      intro l
      induction l with
      | nil => exact fun s => ⟨[], by simp, rfl⟩
      | cons c l ihl =>
        intro s
        obtain ⟨es, hes, heq⟩ := ih s c
        obtain ⟨es', hes', heq'⟩ := ihl (pciDeviceReset t pins fuel s c)
        refine ⟨es ++ es', ?_, ?_⟩
        · simp only [mem_append]
          rintro e (he | he)
          · exact hes e he
          · exact hes' e he
        · rw [foldl_cons, heq', heq, foldl_append]
    set s₁ := (pins d).foldl (fun s e => pciSetIrq t s d e.1 e.2) s
    obtain ⟨es, hes, heq⟩ := hchildren ((finRange n).filter fun c => t.parentDev c = some d) s₁
    refine ⟨(pins d).map (fun e => .setIrq d e.1 e.2) ++ (es ++ [.reset d]), ?_, ?_⟩
    · simp only [mem_append, List.mem_map, List.mem_singleton]
      rintro e (⟨a, -, rfl⟩ | he | rfl)
      · trivial
      · exact hes e he
      · trivial
    · rw [pciDeviceReset, foldl_append, foldl_append, foldl_map]
      change resetIntx t (foldl (pciDeviceReset t pins fuel) s₁ _) d = _
      rw [heq]
      rfl

end Accounting

/-! ## One device -/

/-- A device on the root bus, with the writable bits that `pci_init_wmask` sets. -/
def oneDevice : Topology 1 where
  device _ :=
    { wmask := fun i => if i = 4 then 0x07#8 else if i = 5 then 0x04#8 else 0#8
      w1cmask := fun _ => 0#8
      msiCap := none
      msixCap := none
      masks_disjoint := fun _ => and_zero
      msiCap_ge := by simp
      msixCap_ge := by simp }
  parentDev _ := none
  mapIrq _ irqNum := irqNum
  depth _ := 0
  depth_lt := by simp

def quiet : State 1 :=
  { dev := fun _ => { config := fun _ => 0#8, irqState := 0#8 }
    irqCount := fun _ => 0
    level := fun _ => false }

lemma quiet_initial : quiet.Initial := ⟨fun _ => rfl, fun _ => rfl, fun _ => rfl⟩

/-- A pin is raised, interrupts are disabled with a write of the whole register, and the device is
reset. -/
theorem oneDevice_accounted :
    Accounted oneDevice (step oneDevice (step oneDevice (step oneDevice quiet (.setIrq 0 0 true))
      (.writeConfig 0 4 0x400#32 2)) (.reset 0)) :=
  reachable_accounted oneDevice
    ((((Reachable.initial quiet_initial).step (e := .setIrq 0 0 true) trivial trivial).step
      (e := .writeConfig 0 4 0x400#32 2) ⟨by decide, by decide⟩ (by decide +kernel)).step
      (e := .reset 0) trivial (by decide +kernel))

/-- With a pin raised, a write of the second byte of the command register leaves the line up
although interrupts are disabled, and a reset leaves it up although no pin is raised. -/
theorem oneDevice_miscounted :
    (∃ s, Reachable oneDevice (fun _ e => ∀ d, e ≠ .reset d) s ∧ ¬ Accounted oneDevice s) ∧
      ∃ s, Reachable oneDevice (fun _ e => ∀ d addr val l, e ≠ .writeConfig d addr val l) s ∧
        ¬ Accounted oneDevice s := by
  constructor
  · refine ⟨_,
      ((Reachable.initial quiet_initial).step (e := .setIrq 0 0 true) trivial (by simp)).step
      (e := .writeConfig 0 5 4#32 1) ⟨by decide, by decide⟩ (by simp), fun h => ?_⟩
    exact absurd (h 0).1 (by decide +kernel)
  · refine ⟨_,
      ((Reachable.initial quiet_initial).step (e := .setIrq 0 0 true) trivial (by simp)).step
      (e := .reset 0) trivial (by simp), fun h => ?_⟩
    exact absurd (h 0).1 (by decide +kernel)

end Qemu.Pci
