/-
Context switches (`src/context_switch.s`, and the contexts `task_create` prepares).

`contextSwitch` is the routine, instruction by instruction. A task that is switched
out leaves a frame on its own stack, `cpsr` below `r0`-`r12` and `lr`, and the
address of the frame in the first word of its control block. `task_create` leaves
the registers of a new task in the fields of `task->context`; its first word is
`context.r0`, which is zero.

* `contextSwitch_saves`, `contextSwitch_loads`: what the two halves of one execution do.
* `stored_savedMem`, `savedMem_tcb`: the frame and its address in memory.
* `savedMem_of_outside`: the save half writes nothing else.
-/
import ArmKernel.Support.Arm
import ArmKernel.Tasks.Table

namespace ArmKernel.Context

open ArmKernel.Support ArmKernel.Tasks

/-! ### The routine -/

/-- `{r0-r12, lr}`. -/
def generalRegs : List (Fin 16) := [0, 1, 2, 3, 4, 5, 6, 7, 8, 9, 10, 11, 12, lr]

/-- The fields of a status register that `msr spsr, r2` writes. With no suffix the
assembler takes `_fc`: the flags byte and the control byte. -/
def spsrFields : Word := 0xFF0000FF

/-- The code at label `1`. -/
def loadNext : List Instr :=
  [.ldr sp 1, .ldmfd sp [2], .msrSpsr spsrFields 2, .ldmfd sp generalRegs, .movsPc lr]

/-- `context_switch`. -/
def contextSwitch : List Instr :=
  [.stmfd sp generalRegs, .mrsCpsr 2, .stmfd sp [2], .cmp 0 0, .beq 1, .str sp 0] ++ loadNext

/-- What a task had when it was switched out. -/
structure Snapshot where
  regs : Fin 16 → Word
  cpsr : Word

/-- The frame `context_switch` saves. -/
def Snapshot.frame (snap : Snapshot) : List Word := snap.cpsr :: generalRegs.map snap.regs

/-- The address of the frame. -/
def Snapshot.top (snap : Snapshot) : Word := snap.regs sp - 60

def Snapshot.of (m : Machine) : Snapshot := ⟨m.regs, m.cpsr⟩

/-- Memory after the save half. -/
def savedMem (m : Machine) : Word → Word :=
  let pushed := storeWords (storeWords m.mem (m.regs sp - 56) (generalRegs.map m.regs))
    (m.regs sp - 60) [m.cpsr]
  if m.regs 0 = 0 then pushed else Function.update pushed (m.regs 0) (m.regs sp - 60)

/-- The machine when `cmp r0, #0` has run. -/
def pushed (m : Machine) : Machine :=
  (Instr.cmp 0 0).exec ((Instr.stmfd sp [2]).exec
    ((Instr.mrsCpsr 2).exec ((Instr.stmfd sp generalRegs).exec m)))

theorem pushed_regs (m : Machine) (r : Fin 16) (h2 : r ≠ 2) (hsp : r ≠ sp) :
    (pushed m).regs r = m.regs r := by
  simp [pushed, Instr.exec, Machine.setReg, Machine.setFlags, h2, hsp]

theorem pushed_sp (m : Machine) : (pushed m).regs sp = m.regs sp - 60 := by
  have h2 : sp ≠ 2 := by decide
  simp [pushed, Instr.exec, Machine.setReg, Machine.setFlags, h2, generalRegs, BitVec.sub_sub]

theorem pushed_mem (m : Machine) : (pushed m).mem
    = storeWords (storeWords m.mem (m.regs sp - 56) (generalRegs.map m.regs))
        (m.regs sp - 60) [m.cpsr] := by
  have h2 : sp ≠ 2 := by decide
  simp [pushed, Instr.exec, Machine.setReg, Machine.setFlags, h2, generalRegs, BitVec.sub_sub]

theorem pushed_flagZ (m : Machine) : (pushed m).flagZ = (m.regs 0 == 0) := by
  have h0 : (0 : Fin 16) ≠ sp := by decide
  simp [pushed, Instr.exec, Machine.setReg, h0]

/-- **The save half** stores the frame and its address and hands over to label `1`. -/
theorem contextSwitch_saves (m : Machine) :
    ∃ m₁ : Machine, exec 0 contextSwitch m = exec 0 loadNext m₁ ∧ m₁.mem = savedMem m ∧
      m₁.regs 1 = m.regs 1 ∧ m₁.spsr = m.spsr := by
  have hcode : exec 0 contextSwitch m
      = exec (bif (pushed m).flagZ then 1 else 0) (.str sp 0 :: loadNext) (pushed m) := rfl
  rw [pushed_flagZ] at hcode
  by_cases hnull : m.regs 0 = 0
  · -- `beq 1f`: there is no control block to store the stack pointer in.
    rw [beq_iff_eq.mpr hnull] at hcode
    refine ⟨pushed m, hcode, ?_, pushed_regs m 1 (by decide) (by decide), rfl⟩
    rw [pushed_mem, savedMem, if_pos hnull]
  · rw [beq_eq_false_iff_ne.mpr hnull] at hcode
    refine ⟨(Instr.str sp 0).exec (pushed m), hcode, ?_,
      pushed_regs m 1 (by decide) (by decide), rfl⟩
    rw [savedMem, if_neg hnull, ← pushed_mem, ← pushed_sp,
      ← pushed_regs m 0 (by decide) (by decide)]
    rfl

/-- **The load half**, as it finds memory. -/
theorem contextSwitch_loads (m₁ : Machine) {m' : Machine} (h : m' = exec 0 loadNext m₁) :
    m'.mem = m₁.mem ∧ m'.regs sp = m₁.mem (m₁.regs 1) + 60 ∧ m'.regs pc = m'.regs lr ∧
      m'.cpsr = (m₁.mem (m₁.mem (m₁.regs 1)) &&& spsrFields) ||| (m₁.spsr &&& ~~~spsrFields) ∧
      ∃ regs, ∀ r ∈ generalRegs,
        m'.regs r = loadRegs regs m₁.mem (m₁.mem (m₁.regs 1) + 4) generalRegs r := by
  have h2 : (2 : Fin 16) ≠ sp := by decide
  have hlr : lr ≠ pc := by decide
  have hsppc : sp ≠ pc := by decide
  subst h
  refine ⟨rfl, ?_, ?_, ?_, ?_⟩
  · simp [loadNext, exec, Instr.exec, Machine.setReg, hsppc, BitVec.add_assoc, generalRegs]
  · simp [loadNext, exec, Instr.exec, Machine.setReg, hlr]
  · simp [loadNext, exec, Instr.exec, Machine.setReg, loadRegs, h2]
  · refine ⟨((Instr.ldmfd sp [2]).exec ((Instr.ldr sp 1).exec m₁)).regs, ?_⟩
    intro r hr
    have hrsp : r ≠ sp := by rintro rfl; revert hr; decide
    have hrpc : r ≠ pc := by rintro rfl; revert hr; decide
    simp [loadNext, exec, Instr.exec, Machine.setReg, hrsp, hrpc]

/-! ### What the save half leaves alone -/

section Saved

variable {m : Machine} {b : Word}

/-- Byte addresses below the stack pointer. -/
theorem toNat_sub {x : Word} {k : Nat} (hk : k < 2 ^ 32) (h : k ≤ x.toNat) :
    (x - BitVec.ofNat 32 k).toNat = x.toNat - k := by
  have hx := x.isLt
  rw [BitVec.toNat_sub, BitVec.toNat_ofNat, Nat.mod_eq_of_lt hk]
  omega

/-- The frame lies below the stack pointer. -/
theorem stored_savedMem (hroom : 60 ≤ (m.regs sp).toNat)
    (hoff : (m.regs 0).toNat + 4 ≤ (m.regs sp).toNat - 60 ∨ (m.regs sp).toNat ≤ (m.regs 0).toNat) :
    Stored (savedMem m) (Snapshot.of m).top (Snapshot.of m).frame := by
  have h60 : (m.regs sp - 60).toNat = (m.regs sp).toNat - 60 := toNat_sub (by decide) hroom
  have h56 : (m.regs sp - 56).toNat = (m.regs sp).toNat - 56 := toNat_sub (k := 56) (by decide) (by omega)
  have hsp := (m.regs sp).isLt
  have hnext : m.regs sp - 60 + 4 = m.regs sp - 56 := by
    apply BitVec.eq_of_toNat_eq
    rw [toNat_add_four (by omega)]
    omega
  have hlen : (generalRegs.map m.regs).length = 14 := rfl
  -- Both stores, before the stack pointer goes to the control block.
  have hpushed : Stored (storeWords (storeWords m.mem (m.regs sp - 56) (generalRegs.map m.regs))
      (m.regs sp - 60) [m.cpsr]) (Snapshot.of m).top (Snapshot.of m).frame := by
    refine ⟨Function.update_self .., ?_⟩
    show Stored _ (m.regs sp - 60 + 4) (generalRegs.map m.regs)
    rw [hnext]
    have hregs : Stored (storeWords m.mem (m.regs sp - 56) (generalRegs.map m.regs))
        (m.regs sp - 56) (generalRegs.map m.regs) := stored_storeWords (by rw [hlen]; omega)
    refine hregs.congr (by rw [hlen]; omega) fun b hlo _ => ?_
    exact storeWords_of_outside (by simp; omega) (Or.inr (by simp; omega))
  unfold savedMem
  split
  · exact hpushed
  · refine hpushed.congr ?_ fun b hlo hhi => Function.update_of_ne ?_ _ _
    · show (m.regs sp - 60).toNat + 4 * 15 ≤ 2 ^ 32
      omega
    · rintro rfl
      have hlo' : (m.regs sp - 60).toNat ≤ (m.regs 0).toNat := hlo
      have hhi' : (m.regs 0).toNat < (m.regs sp - 60).toNat + 4 * 15 := hhi
      omega

/-- **Frame.** The save half writes 60 bytes below the stack pointer and the first
word of the control block. -/
theorem savedMem_of_outside (hroom : 60 ≤ (m.regs sp).toNat)
    (hstack : b.toNat < (m.regs sp).toNat - 60 ∨ (m.regs sp).toNat ≤ b.toNat)
    (htcb : m.regs 0 = 0 ∨ b ≠ m.regs 0) : savedMem m b = m.mem b := by
  have h60 : (m.regs sp - 60).toNat = (m.regs sp).toNat - 60 := toNat_sub (by decide) hroom
  have h56 : (m.regs sp - 56).toNat = (m.regs sp).toNat - 56 := toNat_sub (k := 56) (by decide) (by omega)
  have hsp := (m.regs sp).isLt
  have hlen : (generalRegs.map m.regs).length = 14 := rfl
  have hpushed : storeWords (storeWords m.mem (m.regs sp - 56) (generalRegs.map m.regs))
      (m.regs sp - 60) [m.cpsr] b = m.mem b := by
    rw [storeWords_of_outside (by simp; omega) (by simp; omega),
      storeWords_of_outside (by rw [hlen]; omega) (by rw [hlen]; omega)]
  unfold savedMem
  split
  · exact hpushed
  · rename_i hne
    exact (Function.update_of_ne (htcb.resolve_left hne) _ _).trans hpushed

/-- The control block holds the address of the frame. -/
theorem savedMem_tcb (hne : m.regs 0 ≠ 0) : savedMem m (m.regs 0) = (Snapshot.of m).top := by
  unfold savedMem
  rw [if_neg hne, Function.update_self]
  rfl

end Saved

end ArmKernel.Context
