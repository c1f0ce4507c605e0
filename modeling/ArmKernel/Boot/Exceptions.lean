/-
Taking an exception and returning from it (`_undefined` to `_fiq` of `src/startup.s`).

A `Core` has the banked registers of an ARM core. `Core.enter` is what the core does when it takes
an exception; `Core.prologue` goes on to the first instruction of the C function that the handler
calls, and `Core.epilogue` is the instruction behind the call.

Code is known by what it does to the registers of its mode and to its own memory. Exceptions come
between its instructions at any time (`Exec`), also while the handler of another exception runs.

* `view_epilogue`, `kept_epilogue`: what one exception leaves behind.
* `exceptions_transparent`: hence the code runs as if it were alone, except that an instruction
  that raises an exception does nothing and is left behind. `Exception.skip` says how far: an
  instruction that was aborted is not tried again, and after a data abort the next one is left
  out, too.
-/
import ArmKernel.Context.Switch
import Mathlib.Logic.Relation

namespace ArmKernel.Boot

open ArmKernel.Support ArmKernel.Tasks ArmKernel.Context Relation

/-! ### Banked registers -/

/-- `MODE_USR` to `MODE_SYS`. -/
inductive Mode where
  | usr
  | fiq
  | irq
  | svc
  | abt
  | und
  | sys
  deriving DecidableEq

/-- System mode has the registers of User mode. -/
def Mode.base : Mode → Mode
  | .sys => .usr
  | m => m

/-- The bank in which a mode finds a register. -/
def bankOf (m : Mode) (r : Fin 16) : Mode :=
  if r = sp ∨ r = lr then m.base
  else if m = .fiq ∧ 8 ≤ r ∧ r ≤ 12 then .fiq
  else .usr

/-- A status register: the mode, and the bits above it. -/
structure Psr where
  mode : Mode
  bits : BitVec 27

structure Core where
  file : Mode → Fin 16 → Word
  psr : Psr
  spsr : Mode → Psr
  mem : Word → Word

namespace Core

variable (c : Core)

/-- The registers of the mode. -/
def regs (r : Fin 16) : Word := c.file (bankOf c.psr.mode r) r

/-- The core with other values in the registers of the mode. -/
def setRegs (regs : Fin 16 → Word) : Core :=
  { c with file := fun m r => if m = bankOf c.psr.mode r then regs r else c.file m r }

theorem setRegs_file {m : Mode} {r : Fin 16} (regs : Fin 16 → Word)
    (h : m ≠ bankOf c.psr.mode r) : (c.setRegs regs).file m r = c.file m r := if_neg h

theorem setRegs_regs (regs : Fin 16 → Word) (r : Fin 16) :
    (c.setRegs regs).file (bankOf c.psr.mode r) r = regs r := if_pos rfl

end Core

/-! ### Exceptions -/

inductive Exception where
  | undefined
  | svc
  | prefetch
  | data
  | irq
  | fiq

namespace Exception

def mode : Exception → Mode
  | undefined => .und
  | svc => .svc
  | prefetch => .abt
  | data => .abt
  | irq => .irq
  | fiq => .fiq

/-- An instruction raises the exception; the others come from outside. -/
def Synchronous : Exception → Prop
  | irq => False
  | fiq => False
  | _ => True

/-- How far the link register is behind the instruction that was to run. -/
def offset : Exception → Word
  | data => 8
  | _ => 4

/-- `sub lr, lr, #4`, where the handler has it. -/
def adjust : Exception → Word
  | irq => 4
  | fiq => 4
  | _ => 0

/-- The bits of the status register after the exception: T, F, I and A are the lowest. -/
def entryBits (k : Exception) (bits : BitVec 27) : BitVec 27 :=
  let masked := match k with
    | undefined => bits ||| 0x4
    | svc => bits ||| 0x4
    | fiq => bits ||| 0xE
    | _ => bits ||| 0xC
  masked &&& ~~~0x1

/-- How far behind the instruction the handler goes on. -/
def skip (k : Exception) : Word := k.offset - k.adjust

theorem skip_of_not_synchronous {k : Exception} (h : ¬k.Synchronous) : k.skip = 0 := by
  cases k with
  | irq => rfl
  | fiq => rfl
  | _ => exact absurd trivial h

@[simp] theorem base_mode (k : Exception) : k.mode.base = k.mode := by cases k <;> rfl

end Exception

/-! ### The handlers -/

/-- `{r0-r12, pc}`. -/
def returnRegs : List (Fin 16) := [0, 1, 2, 3, 4, 5, 6, 7, 8, 9, 10, 11, 12, pc]

namespace Core

variable (c : Core)

/-- The core takes an exception. -/
def enter (k : Exception) : Core where
  file := Function.update c.file k.mode
    (Function.update (c.file k.mode) lr (c.regs pc + k.offset))
  psr := ⟨k.mode, k.entryBits c.psr.bits⟩
  spsr := Function.update c.spsr k.mode c.psr
  mem := c.mem

/-- The registers that the handler stores: `lr` is adjusted before. -/
def saved (k : Exception) : Fin 16 → Word :=
  Function.update (c.enter k).regs lr ((c.enter k).regs lr - k.adjust)

/-- The handler up to the C function at `entry`; `back` is the address behind the call. -/
def prologue (k : Exception) (entry back : Word) : Core :=
  let regs := c.saved k
  let base := regs sp - 56
  -- `stmfd sp!, {r0-r12, lr}` and `bl`.
  { (c.enter k).setRegs (Function.update (Function.update (Function.update regs sp base)
      lr back) pc entry) with
    mem := storeWords c.mem base (generalRegs.map regs) }

/-- `ldmfd sp!, {r0-r12, pc}^`. -/
def epilogue : Core :=
  let base := c.regs sp
  { c.setRegs (Function.update (loadRegs c.regs c.mem base returnRegs) sp (base + 56)) with
    psr := c.spsr c.psr.mode }

end Core

/-! ### Code -/

/-- What code in a mode sees. -/
structure View where
  regs : Fin 16 → Word
  bits : BitVec 27
  mem : Word → Word

/-- The instruction at `pc` is left behind, and nothing else is done. -/
def View.skip (v : View) (k : Exception) : View :=
  { v with regs := Function.update v.regs pc (v.regs pc + k.skip) }

/-- The instructions of a piece of code, and which of them raise an exception. -/
structure Code where
  step : View → View → Prop
  raises : View → Exception → Prop

/-- The code alone. An instruction that raises an exception is skipped. -/
inductive Code.Next (code : Code) : View → View → Prop where
  | step {v v' : View} (h : code.step v v') : Next code v v'
  | raise {v : View} {k : Exception} (hk : k.Synchronous) (h : code.raises v k) :
      Next code v (v.skip k)

/-- A C function that is called at `entry` returns to `back` with the stack pointer it was called
with, and does not write in the frame above it. -/
def Procedure (code : Code) (entry back : Word) : Prop :=
  ∀ v v' : View, v.regs pc = entry → v.regs lr = back → ReflTransGen code.Next v v' →
    v'.regs pc = back → v'.regs sp = v.regs sp ∧
      ∀ b : Word, (v.regs sp).toNat ≤ b.toNat → b.toNat < (v.regs sp).toNat + 56 →
        v'.mem b = v.mem b

/-- The C functions that the handlers call, and the memory of the code of each mode. -/
structure Handlers where
  entry : Exception → Word
  back : Exception → Word
  code : Exception → Code
  area : Mode → Word → Bool
  procedure : ∀ k, Procedure (code k) (entry k) (back k)
  disjoint : ∀ m m' a, area m a = true → area m' a = true → m = m'

namespace Handlers

variable (H : Handlers)

def view (c : Core) : View where
  regs := c.regs
  bits := c.psr.bits
  mem a := if H.area c.psr.mode.base a then c.mem a else 0

/-- The stack of the mode has room for a frame. -/
def Room (k : Exception) (c : Core) : Prop :=
  56 ≤ (c.file k.mode sp).toNat ∧ ∀ b : Word, (c.file k.mode sp).toNat - 56 ≤ b.toNat →
    b.toNat < (c.file k.mode sp).toNat → H.area k.mode b = true

/-- An instruction of the code. It may store outside the memory of all modes, too. -/
structure OwnStep (code : Code) (c c' : Core) : Prop where
  step : code.step (H.view c) (H.view c')
  mode : c'.psr.mode = c.psr.mode
  banks : ∀ m r, m ≠ bankOf c.psr.mode r → c'.file m r = c.file m r
  spsr : c'.spsr = c.spsr
  areas : ∀ m a, m ≠ c.psr.mode.base → H.area m a = true → c'.mem a = c.mem a

/-- Code runs, and exceptions come between its instructions. The modes in `busy` are in use: a
further exception to one of them would take its link register. -/
inductive Exec : List Mode → Code → Core → Core → Prop where
  | done {busy : List Mode} {code : Code} {c : Core} : Exec busy code c c
  | own {busy : List Mode} {code : Code} {c c₁ c' : Core} (step : H.OwnStep code c c₁)
      (rest : Exec busy code c₁ c') : Exec busy code c c'
  | exception {busy : List Mode} {code : Code} {c c₁ c' : Core} (k : Exception)
      (free : k.mode ∉ busy) (raised : k.Synchronous → code.raises (H.view c) k)
      (room : H.Room k c)
      (body : Exec (k.mode :: busy) (H.code k) (c.prologue k (H.entry k) (H.back k)) c₁)
      (returned : c₁.regs pc = H.back k) (rest : Exec busy code c₁.epilogue c') :
      Exec busy code c c'

end Handlers

/-! ### What a handler finds -/

section Prologue

variable {c : Core} {k : Exception} {entry back : Word} {m : Mode} {r : Fin 16}

theorem bankOf_sp (m : Mode) : bankOf m sp = m.base := if_pos (.inl rfl)

theorem bankOf_lr (m : Mode) : bankOf m lr = m.base := if_pos (.inr rfl)

theorem bankOf_pc (m : Mode) : bankOf m pc = .usr := by cases m <;> rfl

theorem enter_file (h : m ≠ k.mode ∨ r ≠ lr) : (c.enter k).file m r = c.file m r := by
  show Function.update c.file k.mode _ m r = _
  by_cases hm : m = k.mode
  · subst hm
    rw [Function.update_self, Function.update_of_ne (h.resolve_left (not_not.mpr rfl))]
  · rw [Function.update_of_ne hm]

theorem enter_regs (h : r ≠ lr) : (c.enter k).regs r = c.file (bankOf k.mode r) r :=
  enter_file (.inr h)

theorem enter_lr : (c.enter k).regs lr = c.regs pc + k.offset := by
  show Function.update c.file k.mode _ (bankOf k.mode lr) lr = _
  rw [bankOf_lr, Exception.base_mode, Function.update_self, Function.update_self]

theorem saved_lr : c.saved k lr = c.regs pc + k.skip := by
  rw [Core.saved, Function.update_self, enter_lr, Exception.skip]
  exact BitVec.eq_of_toNat_eq (by simp only [BitVec.toNat_add, BitVec.toNat_sub]; omega)

theorem saved_of_ne (h : r ≠ lr) : c.saved k r = c.file (bankOf k.mode r) r := by
  rw [Core.saved, Function.update_of_ne h, enter_regs h]

theorem saved_sp : c.saved k sp = c.file k.mode sp := by
  have hsp : sp ≠ lr := by decide
  rw [saved_of_ne hsp, bankOf_sp, Exception.base_mode]

theorem prologue_mode : (c.prologue k entry back).psr.mode = k.mode := rfl

theorem prologue_spsr : (c.prologue k entry back).spsr = Function.update c.spsr k.mode c.psr := rfl

theorem prologue_mem : (c.prologue k entry back).mem =
    storeWords c.mem (c.file k.mode sp - 56) (generalRegs.map (c.saved k)) := by
  rw [Core.prologue, saved_sp]

/-- The registers that the handler does not have. -/
theorem prologue_file (h : m ≠ bankOf k.mode r) :
    (c.prologue k entry back).file m r = c.file m r := by
  rw [Core.prologue, Core.setRegs_file _ _ h]
  refine enter_file (not_and_or.mp ?_)
  rintro ⟨rfl, rfl⟩
  rw [bankOf_lr, Exception.base_mode] at h
  exact h rfl

theorem prologue_regs : (c.prologue k entry back).regs = Function.update (Function.update
    (Function.update (c.saved k) sp (c.saved k sp - 56)) lr back) pc entry :=
  funext fun r => (c.enter k).setRegs_regs _ r

theorem prologue_sp : (c.prologue k entry back).regs sp = c.file k.mode sp - 56 := by
  have hpc : sp ≠ pc := by decide
  have hlr : sp ≠ lr := by decide
  rw [prologue_regs, Function.update_of_ne hpc, Function.update_of_ne hlr, Function.update_self,
    saved_sp]

theorem prologue_lr : (c.prologue k entry back).regs lr = back := by
  have hpc : lr ≠ pc := by decide
  rw [prologue_regs, Function.update_of_ne hpc, Function.update_self]

theorem prologue_pc : (c.prologue k entry back).regs pc = entry := by
  rw [prologue_regs, Function.update_self]

end Prologue

/-! ### What a handler leaves behind -/

namespace Handlers

variable {H : Handlers} {busy : List Mode} {code : Code} {c c₁ c' : Core} {k : Exception}

/-- The registers of the other modes are as before, but for the link registers of those not in
use; the modes in use have their memory and their saved status, too. -/
structure Kept (H : Handlers) (busy : List Mode) (c c' : Core) : Prop where
  mode : c'.psr.mode = c.psr.mode
  banks : ∀ m r, r ≠ lr → m ≠ bankOf c.psr.mode r → c'.file m r = c.file m r
  link : ∀ m ∈ busy, m ≠ c.psr.mode.base → c'.file m lr = c.file m lr
  spsr : ∀ m ∈ busy, c'.spsr m = c.spsr m
  areas : ∀ m ∈ busy, m ≠ c.psr.mode.base → ∀ a, H.area m a = true → c'.mem a = c.mem a

theorem Kept.refl (H : Handlers) (busy : List Mode) (c : Core) : H.Kept busy c c :=
  ⟨rfl, fun _ _ _ _ => rfl, fun _ _ _ => rfl, fun _ _ => rfl, fun _ _ _ _ _ => rfl⟩

theorem Kept.trans (h : H.Kept busy c c₁) (h' : H.Kept busy c₁ c') : H.Kept busy c c' where
  mode := h'.mode.trans h.mode
  banks m r hr hm := (h'.banks m r hr (by rw [h.mode]; exact hm)).trans (h.banks m r hr hm)
  link m hm hne := (h'.link m hm (by rw [h.mode]; exact hne)).trans (h.link m hm hne)
  spsr m hm := (h'.spsr m hm).trans (h.spsr m hm)
  areas m hm hne a ha :=
    (h'.areas m hm (by rw [h.mode]; exact hne) a ha).trans (h.areas m hm hne a ha)

theorem OwnStep.kept (h : H.OwnStep code c c') : H.Kept busy c c' where
  mode := h.mode
  banks m r _ hm := h.banks m r hm
  link m _ hne := h.banks m lr (by rw [bankOf_lr]; exact hne)
  spsr m _ := by rw [h.spsr]
  areas m _ hne a ha := h.areas m a hne ha

/-- The C function has returned, and the frame is as the handler left it. -/
structure Returned (H : Handlers) (busy : List Mode) (k : Exception) (c c₁ : Core) : Prop where
  kept : H.Kept (k.mode :: busy) (c.prologue k (H.entry k) (H.back k)) c₁
  stack : c₁.regs sp = c.file k.mode sp - 56
  frame : Stored c₁.mem (c.file k.mode sp - 56) (generalRegs.map (c.saved k))

/-- **The body of a handler** is a procedure, and the frame is in the memory of the mode. -/
theorem returned_of_body (room : H.Room k c)
    (body : ReflTransGen (H.code k).Next (H.view (c.prologue k (H.entry k) (H.back k))) (H.view c₁))
    (kept : H.Kept (k.mode :: busy) (c.prologue k (H.entry k) (H.back k)) c₁)
    (returned : c₁.regs pc = H.back k) : H.Returned busy k c c₁ := by
  obtain ⟨hstack, hframe⟩ :=
    H.procedure k _ _ prologue_pc prologue_lr body returned
  have hsp : (c.file k.mode sp - 56).toNat = (c.file k.mode sp).toNat - 56 :=
    toNat_sub (by decide) room.1
  have hlt := (c.file k.mode sp).isLt
  have hfit : (c.file k.mode sp - 56).toNat + 4 * (generalRegs.map (c.saved k)).length ≤
      2 ^ 32 := by
    rw [List.length_map]
    show _ + 4 * 14 ≤ 2 ^ 32
    have := room.1
    omega
  have hmode : c₁.psr.mode = k.mode := kept.mode
  have hbase : (H.view (c.prologue k (H.entry k) (H.back k))).regs sp = c.file k.mode sp - 56 :=
    prologue_sp
  rw [hbase] at hstack hframe
  refine ⟨kept, hstack, ?_⟩
  have hstored : Stored (c.prologue k (H.entry k) (H.back k)).mem (c.file k.mode sp - 56)
      (generalRegs.map (c.saved k)) := by
    rw [prologue_mem]
    exact stored_storeWords hfit
  refine hstored.congr hfit fun b hlo hhi => ?_
  rw [List.length_map] at hhi
  have hhi' : b.toNat < (c.file k.mode sp - 56).toNat + 56 := hhi
  have hmem := hframe b hlo hhi'
  have harea : H.area k.mode b = true := room.2 b (by omega) (by have := room.1; omega)
  simpa only [view, hmode, prologue_mode, Exception.base_mode, harea, if_true] using hmem

theorem mem_returnRegs : ∀ {r : Fin 16}, r ≠ pc → r ≠ lr → r ≠ sp → r ∈ returnRegs := by decide

/-- The registers that `ldmfd` loads. -/
theorem Returned.loaded (h : H.Returned busy k c c₁) {r : Fin 16} (hr : r ∈ returnRegs) :
    loadRegs c₁.regs c₁.mem (c₁.regs sp) returnRegs r =
      if r = pc then c.saved k lr else c.saved k r := by
  have hframe : generalRegs.map (c.saved k) =
      returnRegs.map fun r => if r = pc then c.saved k lr else c.saved k r := rfl
  have hstored := h.frame
  rw [hframe, ← h.stack] at hstored
  exact hstored.loadRegs hr

/-- **The registers after an exception**: all but the link register of its mode. -/
theorem Returned.file (h : H.Returned busy k c c₁) {m : Mode} {r : Fin 16} (hpc : r ≠ pc)
    (hlr : r ≠ lr) : c₁.epilogue.file m r = c.file m r := by
  have hmode : c₁.psr.mode = k.mode := h.kept.mode
  by_cases hm : m = bankOf k.mode r
  · -- The handler has the register: it is loaded from the frame.
    have hbank : c₁.epilogue.file m r = Function.update
        (loadRegs c₁.regs c₁.mem (c₁.regs sp) returnRegs) sp (c₁.regs sp + 56) r :=
      if_pos (by rw [hm, hmode])
    rw [hbank, hm]
    by_cases hsp : r = sp
    · subst hsp
      rw [Function.update_self, h.stack, BitVec.sub_add_cancel, bankOf_sp, Exception.base_mode]
    · have hmem : r ∈ returnRegs := mem_returnRegs hpc hlr hsp
      rw [Function.update_of_ne hsp, h.loaded hmem, if_neg hpc, saved_of_ne hlr]
  · have hbank : c₁.epilogue.file m r = c₁.file m r := if_neg (by rw [hmode]; exact hm)
    rw [hbank, h.kept.banks m r hlr hm, prologue_file hm]

theorem Returned.next (h : H.Returned busy k c c₁) :
    c₁.epilogue.file .usr pc = c.regs pc + k.skip := by
  have hsp : pc ≠ sp := by decide
  have hbank : c₁.epilogue.file .usr pc = Function.update
      (loadRegs c₁.regs c₁.mem (c₁.regs sp) returnRegs) sp (c₁.regs sp + 56) pc :=
    if_pos (bankOf_pc _).symm
  rw [hbank, Function.update_of_ne hsp, h.loaded (by decide), if_pos rfl, saved_lr]

theorem Returned.link (h : H.Returned busy k c c₁) {m : Mode} (hm : m ∈ busy)
    (hne : m ≠ k.mode) : c₁.epilogue.file m lr = c.file m lr := by
  have hmode : c₁.psr.mode = k.mode := h.kept.mode
  have hbank : m ≠ bankOf k.mode lr := by rwa [bankOf_lr, Exception.base_mode]
  have hkept : c₁.epilogue.file m lr = c₁.file m lr := if_neg (by rw [hmode]; exact hbank)
  have hbody := h.kept.link m (List.mem_cons_of_mem _ hm)
    (by rw [prologue_mode, Exception.base_mode]; exact hne)
  rw [hkept, hbody, prologue_file hbank]

/-- The status register is the one of the code that was interrupted. -/
theorem Returned.psr (h : H.Returned busy k c c₁) : c₁.epilogue.psr = c.psr := by
  have hmode : c₁.psr.mode = k.mode := h.kept.mode
  show c₁.spsr c₁.psr.mode = c.psr
  rw [hmode, h.kept.spsr k.mode List.mem_cons_self, prologue_spsr, Function.update_self]

theorem Returned.spsr (h : H.Returned busy k c c₁) {m : Mode} (hm : m ∈ busy) (hne : m ≠ k.mode) :
    c₁.epilogue.spsr m = c.spsr m := by
  show c₁.spsr m = c.spsr m
  rw [h.kept.spsr m (List.mem_cons_of_mem _ hm), prologue_spsr, Function.update_of_ne hne]

/-- The handler stores in the memory of its mode. -/
theorem Returned.areas (h : H.Returned busy k c c₁) (room : H.Room k c) {m : Mode} (hm : m ∈ busy)
    (hne : m ≠ k.mode) {a : Word} (ha : H.area m a = true) : c₁.epilogue.mem a = c.mem a := by
  have hbody := h.kept.areas m (List.mem_cons_of_mem _ hm)
    (by rw [prologue_mode, Exception.base_mode]; exact hne) a ha
  have hsp : (c.file k.mode sp - 56).toNat = (c.file k.mode sp).toNat - 56 :=
    toNat_sub (by decide) room.1
  have hlt := (c.file k.mode sp).isLt
  have hroom := room.1
  have hlength : (generalRegs.map (c.saved k)).length = 14 := rfl
  have houtside : ¬((c.file k.mode sp).toNat - 56 ≤ a.toNat ∧
      a.toNat < (c.file k.mode sp).toNat) :=
    fun hin => hne (H.disjoint m k.mode a ha (room.2 a hin.1 hin.2))
  show c₁.mem a = c.mem a
  rw [hbody, prologue_mem]
  exact storeWords_of_outside (by rw [hlength]; omega) (by rw [hlength]; omega)

/-- **One exception**, seen by the code that it interrupts. -/
theorem view_epilogue (h : H.Returned busy k c c₁) (room : H.Room k c)
    (hbusy : c.psr.mode.base ∈ busy) (free : k.mode ∉ busy) :
    H.view c₁.epilogue = (H.view c).skip k := by
  have hne : c.psr.mode.base ≠ k.mode := fun heq => free (heq ▸ hbusy)
  have hregs : c₁.epilogue.regs =
      Function.update c.regs pc (c.regs pc + k.skip) := by
    funext r
    rw [Core.regs, h.psr]
    by_cases hpc : r = pc
    · subst hpc
      rw [bankOf_pc, h.next, Function.update_self]
    · rw [Function.update_of_ne hpc]
      by_cases hlr : r = lr
      · subst hlr
        rw [bankOf_lr, h.link hbusy hne, Core.regs, bankOf_lr]
      · rw [h.file hpc hlr, Core.regs]
  have hmem : (fun a => if H.area c.psr.mode.base a = true then c₁.epilogue.mem a else 0) =
      fun a => if H.area c.psr.mode.base a = true then c.mem a else 0 := by
    funext a
    split
    · rename_i ha
      exact h.areas room hbusy hne ha
    · rfl
  rw [view, View.skip, view, h.psr, hregs, hmem]

/-- **One exception**, for the other modes. -/
theorem kept_epilogue (h : H.Returned busy k c c₁) (room : H.Room k c) (free : k.mode ∉ busy) :
    H.Kept busy c c₁.epilogue where
  mode := by rw [h.psr]
  banks m r hlr hm := by
    have hmode : c₁.psr.mode = k.mode := h.kept.mode
    by_cases hpc : r = pc
    · subst hpc
      rw [bankOf_pc] at hm
      have hbank : m ≠ bankOf k.mode pc := by rwa [bankOf_pc]
      have hkept : c₁.epilogue.file m pc = c₁.file m pc :=
        if_neg (by rw [hmode]; exact hbank)
      rw [hkept, h.kept.banks m _ hlr hbank, prologue_file hbank]
    · exact h.file hpc hlr
  link m hm _ := h.link hm fun heq => free (heq ▸ hm)
  spsr m hm := h.spsr hm fun heq => free (heq ▸ hm)
  areas m hm _ _ ha := h.areas room hm (fun heq => free (heq ▸ hm)) ha

/-- What code and handlers do together, in any nesting. -/
theorem Exec.spec (h : H.Exec busy code c c') (hbusy : c.psr.mode.base ∈ busy) :
    ReflTransGen code.Next (H.view c) (H.view c') ∧ H.Kept busy c c' := by
  induction h with
  | done => exact ⟨.refl, .refl ..⟩
  | own step rest ih =>
    obtain ⟨hview, hkept⟩ := ih (by rw [step.mode]; exact hbusy)
    exact ⟨.head (.step step.step) hview, step.kept.trans hkept⟩
  | @exception busy code c c₁ c' k free raised room body returned rest ihBody ihRest =>
    obtain ⟨hbody, hbodyKept⟩ := ihBody (by
      rw [prologue_mode, Exception.base_mode]
      exact List.mem_cons_self)
    have hreturned := returned_of_body room hbody hbodyKept returned
    have hview := view_epilogue hreturned room hbusy free
    have hkept := kept_epilogue hreturned room free
    obtain ⟨hrest, hrestKept⟩ := ihRest (by rw [hreturned.psr]; exact hbusy)
    refine ⟨?_, hkept.trans hrestKept⟩
    rw [hview] at hrest
    by_cases hk : k.Synchronous
    · exact .head (.raise hk (raised hk)) hrest
    · have hsame : (H.view c).skip k = H.view c := by
        have hzero : (H.view c).regs pc + k.skip = (H.view c).regs pc := by
          rw [Exception.skip_of_not_synchronous hk]
          exact BitVec.add_zero _
        rw [View.skip, hzero, Function.update_eq_self]
      rwa [hsame] at hrest

/-- **Exceptions are transparent.** However exceptions come between the instructions of a piece of
code, and nest in each other, the code does what it does alone, in the mode and with the memory it
has, and the stack pointers of all other modes are back where they were. -/
theorem exceptions_transparent (h : H.Exec busy code c c') (hbusy : c.psr.mode.base ∈ busy) :
    ReflTransGen code.Next (H.view c) (H.view c') ∧ c'.psr.mode = c.psr.mode ∧
      ∀ m, m ≠ c.psr.mode.base → c'.file m sp = c.file m sp := by
  obtain ⟨hview, hkept⟩ := h.spec hbusy
  have hsp : sp ≠ lr := by decide
  exact ⟨hview, hkept.mode, fun m hm => hkept.banks m sp hsp (by rw [bankOf_sp]; exact hm)⟩

end Handlers

/-! ### An interrupt within a system call -/

section Example

/-- `bx lr`, as a whole C function. -/
def returnAtOnce : Code where
  step v v' := v' = { v with regs := Function.update v.regs pc (v.regs lr) }
  raises _ _ := False

theorem returnAtOnce_next {v v' : View} (h : ReflTransGen returnAtOnce.Next v v') :
    v'.regs sp = v.regs sp ∧ v'.mem = v.mem := by
  have hsp : sp ≠ pc := by decide
  induction h with
  | refl => exact ⟨rfl, rfl⟩
  | @tail v₁ v₂ _ hnext ih =>
    cases hnext with
    | step hstep =>
      have hback : (Function.update v₁.regs pc (v₁.regs lr)) sp = v₁.regs sp :=
        Function.update_of_ne hsp _ _
      rw [hstep]
      exact ⟨hback.trans ih.1, ih.2⟩
    | raise _ hraise => exact hraise.elim

/-- The memory of a mode is one block of 256 bytes. -/
def blockOf : Mode → Nat
  | .usr => 1
  | .fiq => 2
  | .irq => 3
  | .svc => 4
  | .abt => 5
  | .und => 6
  | .sys => 7

/-- Handlers whose C functions return at once. -/
def idle : Handlers where
  entry _ := 0x2000
  back _ := 0x3000
  code _ := returnAtOnce
  area m a := a.toNat / 256 == blockOf m
  procedure _ _ _ _ _ hrun _ :=
    ⟨(returnAtOnce_next hrun).1, fun _ _ _ => by rw [(returnAtOnce_next hrun).2]⟩
  disjoint m m' a h h' := by
    have hblock : blockOf m = blockOf m' := (beq_iff_eq.mp h).symm.trans (beq_iff_eq.mp h')
    cases m <;> cases m' <;> first | rfl | exact absurd hblock (by decide)

/-- A stack pointer at the end of each block. -/
def idleCore : Core where
  file m r := if r = sp then BitVec.ofNat 32 (256 * blockOf m + 256) else 0
  psr := ⟨.usr, 0⟩
  spsr _ := ⟨.usr, 0⟩
  mem _ := 0

/-- `bx lr`. -/
def Core.bxLr (c : Core) : Core := c.setRegs (Function.update c.regs pc (c.regs lr))

theorem Core.bxLr_pc (c : Core) : c.bxLr.regs pc = c.regs lr := by
  rw [Core.bxLr, Core.regs]
  exact (c.setRegs_regs _ pc).trans (Function.update_self ..)

theorem ownStep_bxLr (c : Core) : idle.OwnStep returnAtOnce c c.bxLr where
  step := by
    have hregs : c.bxLr.regs = Function.update c.regs pc (c.regs lr) :=
      funext fun r => c.setRegs_regs _ r
    show idle.view c.bxLr = { idle.view c with regs := Function.update c.regs pc (c.regs lr) }
    rw [← hregs]
    rfl
  mode := rfl
  banks _ _ h := c.setRegs_file _ h
  spsr := rfl
  areas _ _ _ _ := rfl

/-- `svc`, again and again. -/
def callForever : Code where
  step _ _ := False
  raises _ k := k = .svc

/-- The system call, and the interrupt that comes before its C function returns. -/
def callEntry : Core := idleCore.prologue .svc 0x2000 0x3000

def interruptEntry : Core := callEntry.prologue .irq 0x2000 0x3000

theorem room_irq : idle.Room .irq callEntry := by
  have hsp : callEntry.file .irq sp = 0x400 := rfl
  refine ⟨by rw [Exception.mode, hsp]; decide, fun b hlo hhi => beq_iff_eq.mpr ?_⟩
  rw [Exception.mode, hsp] at hlo hhi
  have hlo' : 0x400 - 56 ≤ b.toNat := hlo
  have hhi' : b.toNat < 0x400 := hhi
  show b.toNat / 256 = 3
  omega

theorem room_svc : idle.Room .svc idleCore := by
  have hsp : idleCore.file .svc sp = 0x500 := rfl
  refine ⟨by rw [Exception.mode, hsp]; decide, fun b hlo hhi => beq_iff_eq.mpr ?_⟩
  rw [Exception.mode, hsp] at hlo hhi
  have hlo' : 0x500 - 56 ≤ b.toNat := hlo
  have hhi' : b.toNat < 0x500 := hhi
  show b.toNat / 256 = 4
  omega

theorem interrupted_call :
    idle.Exec [.usr] callForever idleCore interruptEntry.bxLr.epilogue.bxLr.epilogue :=
  have hlink : interruptEntry.bxLr.epilogue.regs lr = 0x3000 := rfl
  .exception .svc (by decide) (fun _ => rfl) room_svc
    (.exception .irq (by decide) (fun h => h.elim) room_irq
      (.own (ownStep_bxLr _) .done) (interruptEntry.bxLr_pc.trans prologue_lr)
      (.own (ownStep_bxLr _) .done))
    (interruptEntry.bxLr.epilogue.bxLr_pc.trans hlink) .done

/-- The task that made the call sees nothing but its next instruction. -/
theorem exceptions_transparent_call : ReflTransGen callForever.Next (idle.view idleCore)
      (idle.view interruptEntry.bxLr.epilogue.bxLr.epilogue) ∧
    interruptEntry.bxLr.epilogue.bxLr.epilogue.psr.mode = idleCore.psr.mode ∧
    ∀ m, m ≠ idleCore.psr.mode.base →
      interruptEntry.bxLr.epilogue.bxLr.epilogue.file m sp = idleCore.file m sp :=
  Handlers.exceptions_transparent interrupted_call (by decide)

end Example

end ArmKernel.Boot
