/-
A few instructions of a 32-bit ARM core, without banked registers.

Memory is read and written a word at a time; an address is a multiple of four, so
distinct addresses do not overlap. `storeWords` and `loadRegs` are the block
transfers behind `stmfd` and `ldmfd`:

* `Stored mem a ws`: the words `ws` lie at `a` and upwards.
* `stored_storeWords`, `storeWords_of_outside`: what a block store leaves there, and
  what it leaves alone.
* `Stored.loadRegs`: loading registers from where they were stored gives them back.
-/
import Mathlib.Algebra.GroupWithZero.Nat
import Mathlib.Algebra.Order.Group.Nat
import Mathlib.Logic.Function.Basic

namespace ArmKernel.Support

/-- Registers, status registers and memory. -/
structure Machine where
  regs : Fin 16 → BitVec 32
  cpsr : BitVec 32
  spsr : BitVec 32
  mem : BitVec 32 → BitVec 32

/-- There are registers, so that a numeral is one of them. -/
instance regsNonempty : NeZero 16 := ⟨by decide⟩

/-- The numbers of `sp`, `lr` and `pc`. -/
def sp : Fin 16 := 13

def lr : Fin 16 := 14

def pc : Fin 16 := 15

/-- `beq` is given by the number of instructions it skips. `msrSpsr fields` writes the
fields of the status register that the mask has set. -/
inductive Instr where
  | stmfd (rn : Fin 16) (list : List (Fin 16))
  | ldmfd (rn : Fin 16) (list : List (Fin 16))
  | str (rt rn : Fin 16)
  | ldr (rt rn : Fin 16)
  | cmp (rn : Fin 16) (imm : BitVec 32)
  | beq (skip : Nat)
  | mrsCpsr (rd : Fin 16)
  | msrSpsr (fields : BitVec 32) (rm : Fin 16)
  | movsPc (rm : Fin 16)

/-! ### Block transfers -/

variable {mem mem' : BitVec 32 → BitVec 32} {a b : BitVec 32} {w : BitVec 32}
  {ws : List (BitVec 32)}

/-- Store the words at `a` and upwards. -/
def storeWords (mem : BitVec 32 → BitVec 32) (a : BitVec 32) :
    List (BitVec 32) → BitVec 32 → BitVec 32
  | [] => mem
  | w :: ws => storeWords (Function.update mem a w) (a + 4) ws

/-- Load the registers of the list from `a` and upwards. -/
def loadRegs (regs : Fin 16 → BitVec 32) (mem : BitVec 32 → BitVec 32) (a : BitVec 32) :
    List (Fin 16) → Fin 16 → BitVec 32
  | [] => regs
  | r :: list => loadRegs (Function.update regs r (mem a)) mem (a + 4) list

/-- The words lie at `a` and upwards. -/
def Stored (mem : BitVec 32 → BitVec 32) (a : BitVec 32) : List (BitVec 32) → Prop
  | [] => True
  | w :: ws => mem a = w ∧ Stored mem (a + 4) ws

/-- Byte addresses of a block that does not run over the end of memory. -/
theorem toNat_add_four (h : a.toNat + 4 < 2 ^ 32) : (a + 4).toNat = a.toNat + 4 := by
  rw [BitVec.toNat_add]
  exact Nat.mod_eq_of_lt h

/-- **Frame.** A block store leaves what lies outside the block alone. -/
theorem storeWords_of_outside (hfit : a.toNat + 4 * ws.length ≤ 2 ^ 32)
    (hb : b.toNat < a.toNat ∨ a.toNat + 4 * ws.length ≤ b.toNat) :
    storeWords mem a ws b = mem b := by
  induction ws generalizing mem a with
  | nil => rfl
  | cons w ws ih =>
    simp only [List.length_cons] at hfit hb
    have hne : b ≠ a := by
      rintro rfl
      omega
    rw [storeWords]
    rcases ws with - | ⟨w', ws⟩
    · exact Function.update_of_ne hne _ _
    · have hnext : (a + 4).toNat = a.toNat + 4 := toNat_add_four (by simp at hfit; omega)
      rw [ih (by omega) (by omega), Function.update_of_ne hne]

/-- The words survive in a memory that agrees on the block. -/
theorem Stored.congr (h : Stored mem a ws) (hfit : a.toNat + 4 * ws.length ≤ 2 ^ 32)
    (same : ∀ b : BitVec 32, a.toNat ≤ b.toNat → b.toNat < a.toNat + 4 * ws.length →
      mem' b = mem b) : Stored mem' a ws := by
  induction ws generalizing a with
  | nil => trivial
  | cons w ws ih =>
    simp only [List.length_cons] at hfit same
    refine ⟨(same a (Nat.le_refl _) (by omega)).trans h.1, ?_⟩
    rcases ws with - | ⟨w', ws⟩
    · trivial
    · have hnext : (a + 4).toNat = a.toNat + 4 := toNat_add_four (by simp at hfit; omega)
      exact ih h.2 (by omega) fun b hlo hhi => same b (by omega) (by omega)

/-- A block store leaves the words where they were asked for. -/
theorem stored_storeWords (hfit : a.toNat + 4 * ws.length ≤ 2 ^ 32) :
    Stored (storeWords mem a ws) a ws := by
  induction ws generalizing mem a with
  | nil => trivial
  | cons w ws ih =>
    rw [storeWords]
    rcases ws with - | ⟨w', ws⟩
    · exact ⟨Function.update_self .., trivial⟩
    · simp only [List.length_cons] at hfit ih
      have hnext : (a + 4).toNat = a.toNat + 4 := toNat_add_four (by omega)
      refine ⟨?_, ih (by omega)⟩
      rw [storeWords_of_outside (by simp; omega) (Or.inl (by omega)), Function.update_self]

/-- Loading leaves the registers outside the list alone. -/
theorem loadRegs_of_notMem {regs : Fin 16 → BitVec 32} {list : List (Fin 16)} {r : Fin 16}
    (hr : r ∉ list) : loadRegs regs mem a list r = regs r := by
  induction list generalizing regs a with
  | nil => rfl
  | cons r' list ih =>
    rw [loadRegs, ih (fun h => hr (List.mem_cons_of_mem _ h)),
      Function.update_of_ne (fun h => hr (List.mem_cons.mpr (Or.inl h)))]

/-- **Round trip.** Registers come back from where their values were stored. -/
theorem Stored.loadRegs {regs saved : Fin 16 → BitVec 32} {list : List (Fin 16)} {r : Fin 16}
    (h : Stored mem a (list.map saved)) (hr : r ∈ list) :
    ArmKernel.Support.loadRegs regs mem a list r = saved r := by
  induction list generalizing regs a with
  | nil => simp at hr
  | cons r' list ih =>
    rw [ArmKernel.Support.loadRegs]
    by_cases hlater : r ∈ list
    · exact ih h.2 hlater
    · obtain rfl : r = r' := (List.mem_cons.mp hr).resolve_right hlater
      rw [loadRegs_of_notMem hlater, Function.update_self]
      exact h.1

/-! ### Execution -/

namespace Machine

variable (m : Machine)

def setReg (r : Fin 16) (x : BitVec 32) : Machine := { m with regs := Function.update m.regs r x }

/-- `cpsr` with the flags N, Z, C and V replaced. -/
def setFlags (n z c v : Bool) : Machine :=
  let flags := (bif n then 0x80000000 else 0) ||| (bif z then 0x40000000 else 0) |||
    (bif c then 0x20000000 else 0) ||| (bif v then 0x10000000 else 0)
  { m with cpsr := (m.cpsr &&& 0x0FFFFFFF) ||| flags }

/-- The flag Z. -/
def flagZ : Bool := m.cpsr.getLsbD 30

@[simp] theorem flagZ_setFlags (n z c v : Bool) : (m.setFlags n z c v).flagZ = z := by
  cases n <;> cases z <;> cases c <;> cases v <;> simp [flagZ, setFlags]

end Machine

/-- One instruction that does not branch. -/
def Instr.exec (m : Machine) : Instr → Machine
  | .stmfd rn list =>
    let base := m.regs rn - BitVec.ofNat 32 (4 * list.length)
    { m.setReg rn base with mem := storeWords m.mem base (list.map m.regs) }
  | .ldmfd rn list =>
    let base := m.regs rn
    let loaded := { m with regs := loadRegs m.regs m.mem base list }
    loaded.setReg rn (base + BitVec.ofNat 32 (4 * list.length))
  | .str rt rn => { m with mem := Function.update m.mem (m.regs rn) (m.regs rt) }
  | .ldr rt rn => m.setReg rt (m.mem (m.regs rn))
  | .cmp rn imm =>
    let x := m.regs rn
    let d := x - imm
    m.setFlags d.msb (d == 0) (decide (imm ≤ x)) ((x.msb != imm.msb) && (d.msb != x.msb))
  | .beq _ => m
  | .mrsCpsr rd => m.setReg rd m.cpsr
  | .msrSpsr fields rm =>
    { m with spsr := (m.regs rm &&& fields) ||| (m.spsr &&& ~~~fields) }
  | .movsPc rm => { m.setReg pc (m.regs rm) with cpsr := m.spsr }

/-- A straight piece of code with forward branches; the first `skip` instructions are
jumped over. -/
def exec : Nat → List Instr → Machine → Machine
  | _, [], m => m
  | skip + 1, _ :: code, m => exec skip code m
  | 0, .beq k :: code, m => exec (bif m.flagZ then k else 0) code m
  | 0, i :: code, m => exec 0 code (i.exec m)

end ArmKernel.Support
