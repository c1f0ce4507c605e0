/-
The reset handler (`_start` of `src/startup.s`), up to its first call of a C function.

`resetCode` has the instructions in order, in five blocks: the stack pointers of all modes, the
system control register, the vectors, `.data` and `.bss`. The addresses are those that the linker
gives the symbols. A word is read and written at a time, as in `Support.Arm`.

The two loops compare addresses as signed numbers. `wordsTo` is how many words they write: the
signed distance, rounded up, and none when the end is not above the start.

* `copy_loop`, `clear_loop`: one loop, by induction on the words that are left.
* `reset_prepares`: the code comes to its end with every stack pointer set, interrupts masked,
  the MMU and the caches off, the vectors at 0, `.data` copied and `.bss` cleared, and no other
  word written.
-/
import ArmKernel.Boot.Exceptions

namespace ArmKernel.Boot

open ArmKernel.Support ArmKernel.Tasks

/-! ### Instructions -/

/-- What `mcr p15, 0, r0, c8, c7, 0` and `mcr p15, 0, r0, c7, c7, 0` do. -/
inductive Maintenance where
  | invalidateTlb
  | invalidateCaches
deriving DecidableEq

/-- The core, its system control register, and the maintenance operations so far. -/
structure Cpu where
  core : Core
  sctlr : Word
  done : List Maintenance

/-- `msrControl m` is `msr cpsr_c, #(m | I_BIT | F_BIT)`. The transfers with `lt` are those under
the condition of a signed "less than", and advance the address behind them; `blt` branches back
by the number of instructions given. -/
inductive ResetInstr where
  | cpsidIf
  | msrControl (m : Mode)
  | load (r : Fin 16) (value : Word)
  | mrcSctlr (r : Fin 16)
  | bic (r : Fin 16) (imm : Word)
  | mcrSctlr (r : Fin 16)
  | maintain (op : Maintenance)
  | ldmia (rn : Fin 16) (list : List (Fin 16))
  | stmia (rn : Fin 16) (list : List (Fin 16))
  | cmp (rn rm : Fin 16)
  | ldrlt (rt rn : Fin 16)
  | strlt (rt rn : Fin 16)
  | blt (back : Nat)

namespace Cpu

variable (s : Cpu)

/-- A register of the mode. -/
def reg (r : Fin 16) : Word := s.core.regs r

def setRegs (regs : Fin 16 → Word) : Cpu := { s with core := s.core.setRegs regs }

def setReg (r : Fin 16) (x : Word) : Cpu := s.setRegs (Function.update s.core.regs r x)

def setMem (mem : Word → Word) : Cpu := { s with core := { s.core with mem } }

def setPsr (psr : Psr) : Cpu := { s with core := { s.core with psr } }

/-- The flags N, Z, C and V replaced. -/
def setFlags (n z c v : Bool) : Cpu :=
  let flags : BitVec 27 := (bif n then 0x4000000 else 0) ||| (bif z then 0x2000000 else 0) |||
    (bif c then 0x1000000 else 0) ||| (bif v then 0x0800000 else 0)
  s.setPsr { s.core.psr with bits := (s.core.psr.bits &&& 0x07FFFFF) ||| flags }

/-- The condition of a signed "less than": N and V differ. -/
def lt : Bool := s.core.psr.bits.getLsbD 26 != s.core.psr.bits.getLsbD 23

end Cpu

/-- What an instruction does beside going on. -/
def ResetInstr.exec (s : Cpu) : ResetInstr → Cpu
  | .cpsidIf => s.setPsr { s.core.psr with bits := s.core.psr.bits ||| 0x6 }
  | .msrControl m => s.setPsr ⟨m, (s.core.psr.bits &&& ~~~0x7) ||| 0x6⟩
  | .load r value => s.setReg r value
  | .mrcSctlr r => s.setReg r s.sctlr
  | .bic r imm => s.setReg r (s.reg r &&& ~~~imm)
  | .mcrSctlr r => { s with sctlr := s.reg r }
  | .maintain op => { s with done := s.done ++ [op] }
  | .ldmia rn list =>
    s.setRegs (Function.update (loadRegs s.core.regs s.core.mem (s.reg rn) list) rn
      (s.reg rn + BitVec.ofNat 32 (4 * list.length)))
  | .stmia rn list =>
    (s.setMem (storeWords s.core.mem (s.reg rn) (list.map s.reg))).setReg rn
      (s.reg rn + BitVec.ofNat 32 (4 * list.length))
  | .cmp rn rm =>
    let x := s.reg rn
    let y := s.reg rm
    let d := x - y
    s.setFlags d.msb (d == 0) (decide (y ≤ x)) ((x.msb != y.msb) && (d.msb != x.msb))
  | .ldrlt rt rn =>
    bif s.lt then (s.setReg rt (s.core.mem (s.reg rn))).setReg rn (s.reg rn + 4) else s
  | .strlt rt rn =>
    bif s.lt then
      (s.setMem (Function.update s.core.mem (s.reg rn) (s.reg rt))).setReg rn (s.reg rn + 4)
    else s
  | .blt _ => s

/-- One step; the position counts instructions. -/
def resetStep (code : List ResetInstr) (c : Nat × Cpu) : Option (Nat × Cpu) :=
  code[c.1]?.map fun i =>
    match i with
    | .blt back => if c.2.lt then (c.1 - back, c.2) else (c.1 + 1, c.2)
    | i => (c.1 + 1, i.exec c.2)

/-- So many steps, all of them instructions of the code. -/
def resetRun (code : List ResetInstr) : Nat → Nat × Cpu → Option (Nat × Cpu)
  | 0, c => some c
  | k + 1, c => (resetStep code c).bind (resetRun code k)

/-! ### The code -/

/-- The symbols of the linker that the code reads. -/
structure Symbols where
  fiqStackTop : Word
  irqStackTop : Word
  abtStackTop : Word
  undStackTop : Word
  sysStackTop : Word
  svcStackTop : Word
  vectors : Word
  dataLoadaddr : Word
  dataStart : Word
  dataEnd : Word
  bssStart : Word
  bssEnd : Word

/-- Masked interrupts and the stack pointers. -/
def stackCode (y : Symbols) : List ResetInstr :=
  [.cpsidIf,
    .msrControl .fiq, .load sp y.fiqStackTop,
    .msrControl .irq, .load sp y.irqStackTop,
    .msrControl .abt, .load sp y.abtStackTop,
    .msrControl .und, .load sp y.undStackTop,
    .msrControl .sys, .load sp y.sysStackTop,
    .msrControl .svc, .load sp y.svcStackTop]

/-- The caches and the MMU off. -/
def controlCode : List ResetInstr :=
  [.mrcSctlr 0, .bic 0 (1#32 <<< 12), .bic 0 (1#32 <<< 2), .bic 0 (1#32 <<< 0), .mcrSctlr 0,
    .maintain .invalidateTlb, .maintain .invalidateCaches]

/-- `{r2-r9}`. -/
def r2r9 : List (Fin 16) := [2, 3, 4, 5, 6, 7, 8, 9]

/-- The vectors to address 0. -/
def vectorCode (y : Symbols) : List ResetInstr :=
  [.load 0 y.vectors, .load 1 0, .ldmia 0 r2r9, .stmia 1 r2r9, .ldmia 0 r2r9, .stmia 1 r2r9]

/-- The addresses of `.data`. -/
def dataCode (y : Symbols) : List ResetInstr :=
  [.load 0 y.dataLoadaddr, .load 1 y.dataStart, .load 2 y.dataEnd]

/-- The loop `copy_data`. -/
def copyData : List ResetInstr := [.cmp 1 2, .ldrlt 3 0, .strlt 3 1, .blt 3]

/-- The addresses of `.bss`. -/
def bssCode (y : Symbols) : List ResetInstr := [.load 0 y.bssStart, .load 1 y.bssEnd, .load 2 0]

/-- The loop `bss_loop`. -/
def bssLoop : List ResetInstr := [.cmp 0 1, .strlt 2 0, .blt 2]

/-- The reset handler up to `bl mmu_init`. -/
def resetCode (y : Symbols) : List ResetInstr :=
  stackCode y ++ controlCode ++ vectorCode y ++ dataCode y ++ copyData ++ bssCode y ++ bssLoop

/-! ### Registers and flags -/

namespace Cpu

variable {s : Cpu} {r r' : Fin 16} {x : Word} {regs : Fin 16 → Word}

theorem reg_setRegs : (s.setRegs regs).reg r = regs r := s.core.setRegs_regs regs r

theorem reg_setReg_self : (s.setReg r x).reg r = x := by
  rw [setReg, reg_setRegs, Function.update_self]

theorem reg_setReg_of_ne (h : r' ≠ r) : (s.setReg r x).reg r' = s.reg r' := by
  rw [setReg, reg_setRegs, Function.update_of_ne h]
  rfl

@[simp] theorem reg_setMem (mem : Word → Word) : (s.setMem mem).reg r = s.reg r := rfl

@[simp] theorem reg_setFlags (n z c v : Bool) : (s.setFlags n z c v).reg r = s.reg r := rfl

@[simp] theorem lt_setFlags (n z c v : Bool) : (s.setFlags n z c v).lt = (n != v) := by
  cases n <;> cases z <;> cases c <;> cases v <;> simp [lt, setFlags, setPsr]

/-- A word as a signed number. -/
theorem toInt_eq (x : Word) :
    x.toInt = if 2 ^ 31 ≤ x.toNat then (x.toNat : Int) - 2 ^ 32 else (x.toNat : Int) := by
  rw [BitVec.toInt_eq_toNat_cond]
  split <;> split <;> omega

/-- The signed order, from the flags of a difference. -/
theorem flags_slt (x y : Word) :
    ((x - y).msb != ((x.msb != y.msb) && ((x - y).msb != x.msb))) = x.slt y := by
  have hx := x.isLt
  have hy := y.isLt
  rw [Bool.eq_iff_iff, BitVec.slt_iff_toInt_lt, toInt_eq, toInt_eq]
  simp only [BitVec.msb_eq_decide, BitVec.toNat_sub]
  by_cases h₁ : 2 ^ 31 ≤ x.toNat <;> by_cases h₂ : 2 ^ 31 ≤ y.toNat <;>
    by_cases h₃ : 2 ^ 31 ≤ (2 ^ 32 - y.toNat + x.toNat) % 2 ^ 32 <;>
    simp only [Nat.add_one_sub_one, h₁, h₂, h₃, decide_true, decide_false, if_true, if_false,
      bne_self_eq_false, Bool.false_and, Bool.and_false, Bool.and_self, Bool.bne_false,
      Bool.false_bne, Bool.false_eq_true, true_iff, false_iff] <;> omega

theorem lt_cmp (s : Cpu) (rn rm : Fin 16) :
    ((ResetInstr.cmp rn rm).exec s).lt = (s.reg rn).slt (s.reg rm) := by
  rw [ResetInstr.exec, lt_setFlags]
  exact flags_slt _ _

end Cpu

/-- The stack pointers, the mode, the masks and the control register are as they were. -/
structure Untouched (s s' : Cpu) : Prop where
  tops : ∀ m, s'.core.file m sp = s.core.file m sp
  mode : s'.core.psr.mode = s.core.psr.mode
  masks : ∀ j, j < 23 → s'.core.psr.bits.getLsbD j = s.core.psr.bits.getLsbD j
  sctlr : s'.sctlr = s.sctlr
  done : s'.done = s.done

namespace Untouched

variable {s s' s'' : Cpu}

theorem refl (s : Cpu) : Untouched s s := ⟨fun _ => rfl, rfl, fun _ _ => rfl, rfl, rfl⟩

theorem trans (h : Untouched s s') (h' : Untouched s' s'') : Untouched s s'' where
  tops m := (h'.tops m).trans (h.tops m)
  mode := h'.mode.trans h.mode
  masks j hj := (h'.masks j hj).trans (h.masks j hj)
  sctlr := h'.sctlr.trans h.sctlr
  done := h'.done.trans h.done

theorem setMem (s : Cpu) (mem : Word → Word) : Untouched s (s.setMem mem) :=
  ⟨fun _ => rfl, rfl, fun _ _ => rfl, rfl, rfl⟩

theorem setRegs (s : Cpu) {regs : Fin 16 → Word} (h : regs sp = s.reg sp) :
    Untouched s (s.setRegs regs) where
  tops m := by
    by_cases hm : m = bankOf s.core.psr.mode sp
    · subst hm
      exact (s.core.setRegs_regs regs sp).trans h
    · exact s.core.setRegs_file regs hm
  mode := rfl
  masks _ _ := rfl
  sctlr := rfl
  done := rfl

theorem setReg (s : Cpu) {r : Fin 16} (x : Word) (h : r ≠ sp) : Untouched s (s.setReg r x) :=
  setRegs s (Function.update_of_ne (Ne.symm h) _ _)

theorem setFlags (s : Cpu) (n z c v : Bool) : Untouched s (s.setFlags n z c v) where
  tops _ := rfl
  mode := rfl
  masks j hj := by
    have hmask : (0x07FFFFF : BitVec 27).getLsbD j = true := by
      have hall : ∀ i : Fin 23, (0x07FFFFF : BitVec 27).getLsbD i = true := by decide
      exact hall ⟨j, hj⟩
    have hflags : ∀ i : Fin 23, ((bif n then 0x4000000 else 0) ||| (bif z then 0x2000000 else 0) |||
        (bif c then 0x1000000 else 0) ||| (bif v then 0x0800000 else 0) : BitVec 27).getLsbD i =
        false := by
      cases n <;> cases z <;> cases c <;> cases v <;> decide
    simp only [Cpu.setFlags, Cpu.setPsr, BitVec.getLsbD_or, BitVec.getLsbD_and, hmask]
    have hj' := hflags ⟨j, hj⟩
    simp only [BitVec.getLsbD_or] at hj'
    rw [hj', Bool.and_true, Bool.or_false]
  sctlr := rfl
  done := rfl

end Untouched

/-! ### Runs -/

/-- The code comes from one position and state to another. -/
def Reaches (code : List ResetInstr) (c c' : Nat × Cpu) : Prop := ∃ k, resetRun code k c = some c'

section Runs

variable {code : List ResetInstr} {c c' c'' : Nat × Cpu}

theorem resetRun_add (j k : Nat) (c : Nat × Cpu) :
    resetRun code (j + k) c = (resetRun code j c).bind (resetRun code k) := by
  induction j generalizing c with
  | zero => rw [Nat.zero_add, resetRun, Option.bind_some]
  | succ j ih =>
    rw [Nat.succ_add, resetRun, resetRun, Option.bind_assoc]
    exact congrArg _ (funext ih)

theorem Reaches.refl (code : List ResetInstr) (c : Nat × Cpu) : Reaches code c c := ⟨0, rfl⟩

theorem Reaches.trans (h : Reaches code c c') (h' : Reaches code c' c'') : Reaches code c c'' := by
  obtain ⟨j, hj⟩ := h
  obtain ⟨k, hk⟩ := h'
  exact ⟨j + k, by rw [resetRun_add, hj, Option.bind_some, hk]⟩

theorem Reaches.step (h : resetStep code c = some c') : Reaches code c c' :=
  ⟨1, by rw [resetRun, h]; rfl⟩

/-- An instruction that does not branch. -/
def ResetInstr.straight : ResetInstr → Bool
  | .blt _ => false
  | _ => true

/-- A block without branches. -/
theorem reaches_block (pre block post : List ResetInstr) (h : block.all ResetInstr.straight = true)
    (s : Cpu) : Reaches (pre ++ block ++ post) (pre.length, s)
      (pre.length + block.length, block.foldl ResetInstr.exec s) := by
  induction block generalizing pre s with
  | nil => exact .refl _ _
  | cons i block ih =>
    obtain ⟨hi, hblock⟩ := Bool.and_eq_true_iff.mp (List.all_cons ▸ h)
    have hfetch : (pre ++ i :: block ++ post)[pre.length]? = some i := by simp
    have hstep : resetStep (pre ++ i :: block ++ post) (pre.length, s) =
        some (pre.length + 1, i.exec s) := by
      rw [resetStep, hfetch]
      cases i <;> first | rfl | cases hi
    have hrest := ih (pre ++ [i]) hblock (i.exec s)
    rw [List.length_append, List.length_singleton, List.append_assoc pre [i] block] at hrest
    refine (Reaches.step hstep).trans ?_
    rw [List.length_cons, Nat.add_comm block.length, ← Nat.add_assoc]
    exact hrest

/-- The branch at the end of a loop. -/
theorem reaches_blt (pre post : List ResetInstr) (back : Nat) (s : Cpu) :
    Reaches (pre ++ .blt back :: post) (pre.length, s)
      (if s.lt then pre.length - back else pre.length + 1, s) := by
  apply Reaches.step
  have hfetch : (pre ++ .blt back :: post)[pre.length]? = some (.blt back) := by simp
  rw [resetStep, hfetch]
  cases s.lt <;> rfl

end Runs

/-! ### Words -/

/-- How many words a loop writes that starts at `a` and stops at `e`. -/
def wordsTo (a e : Word) : Nat := ((e.toInt - a.toInt + 3) / 4).toNat

/-- The words at `a` and upwards. -/
def image (mem : Word → Word) : Nat → Word → List Word
  | 0, _ => []
  | k + 1, a => mem a :: image mem k (a + 4)

/-- Words moved one after the other. -/
def copyWords : Nat → (Word → Word) → Word → Word → Word → Word
  | 0, mem, _, _ => mem
  | k + 1, mem, src, dst => copyWords k (Function.update mem dst (mem src)) (src + 4) (dst + 4)

section Words

variable {mem mem' : Word → Word} {a e src dst : Word} {k : Nat}

theorem wordsTo_of_not_slt (h : a.slt e = false) : wordsTo a e = 0 := by
  have hle : ¬ a.toInt < e.toInt := fun hlt => by
    rw [BitVec.slt_iff_toInt_lt.mpr hlt] at h
    cases h
  rw [wordsTo]
  omega

/-- One word on. The end does not lie in the last word below the signed limit. -/
theorem wordsTo_of_slt (h : a.slt e = true) (hend : e.toInt ≤ 2 ^ 31 - 4) :
    wordsTo a e = wordsTo (a + 4) e + 1 := by
  have hlt := BitVec.slt_iff_toInt_lt.mp h
  have hnext : (a + 4).toInt = a.toInt + 4 := by
    have ha := a.isLt
    have hsum : (a + 4).toNat = (a.toNat + 4) % 2 ^ 32 := BitVec.toNat_add a 4
    rw [Cpu.toInt_eq] at hlt
    rw [Cpu.toInt_eq, Cpu.toInt_eq]
    split at hlt <;> split <;> omega
  rw [wordsTo, wordsTo, hnext]
  omega

theorem image_length : (image mem k a).length = k := by
  induction k generalizing a with
  | zero => rfl
  | succ k ih => rw [image, List.length_cons, ih]

theorem image_congr (hfit : a.toNat + 4 * k ≤ 2 ^ 32)
    (same : ∀ b : Word, a.toNat ≤ b.toNat → b.toNat < a.toNat + 4 * k → mem' b = mem b) :
    image mem' k a = image mem k a := by
  induction k generalizing a with
  | zero => rfl
  | succ k ih =>
    rw [image, image, same a (Nat.le_refl _) (by omega)]
    congr 1
    rcases k with - | k
    · rfl
    · have hnext : (a + 4).toNat = a.toNat + 4 := toNat_add_four (by omega)
      exact ih (by omega) fun b hlo hhi => same b (by omega) (by omega)

/-- Words that do not overlap their image arrive as they were. -/
theorem copyWords_eq (hsrc : src.toNat + 4 * k ≤ 2 ^ 32) (hdst : dst.toNat + 4 * k ≤ 2 ^ 32)
    (hdisj : src.toNat + 4 * k ≤ dst.toNat ∨ dst.toNat + 4 * k ≤ src.toNat) :
    copyWords k mem src dst = storeWords mem dst (image mem k src) := by
  induction k generalizing mem src dst with
  | zero => rfl
  | succ k ih =>
    rw [copyWords, image, storeWords]
    rcases k with - | k
    · rfl
    · have hs : (src + 4).toNat = src.toNat + 4 := toNat_add_four (by omega)
      have hd : (dst + 4).toNat = dst.toNat + 4 := toNat_add_four (by omega)
      rw [ih (by omega) (by omega) (by omega)]
      congr 1
      refine image_congr (by omega) fun b hlo hhi => Function.update_of_ne ?_ _ _
      rintro rfl
      omega

end Words

/-! ### The loops -/

section Loops

variable {pre post : List ResetInstr} {s : Cpu}

/-- A conditional load and the advance of its address. -/
theorem exec_ldrlt (rt rn : Fin 16) (hrt : rt ≠ rn) (hlt : s.lt = true) :
    let s' := (ResetInstr.ldrlt rt rn).exec s
    s'.reg rt = s.core.mem (s.reg rn) ∧ s'.reg rn = s.reg rn + 4 ∧
      (∀ r, r ≠ rt → r ≠ rn → s'.reg r = s.reg r) ∧ s'.core.mem = s.core.mem ∧ s'.lt = s.lt := by
  simp only [ResetInstr.exec, hlt, cond_true]
  refine ⟨?_, Cpu.reg_setReg_self, fun r hr hr' => ?_, rfl, hlt⟩
  · rw [Cpu.reg_setReg_of_ne hrt, Cpu.reg_setReg_self]
  · rw [Cpu.reg_setReg_of_ne hr', Cpu.reg_setReg_of_ne hr]

/-- A conditional store and the advance of its address. -/
theorem exec_strlt (rt rn : Fin 16) (hlt : s.lt = true) :
    let s' := (ResetInstr.strlt rt rn).exec s
    s'.reg rn = s.reg rn + 4 ∧ (∀ r, r ≠ rn → s'.reg r = s.reg r) ∧
      s'.core.mem = Function.update s.core.mem (s.reg rn) (s.reg rt) ∧ s'.lt = s.lt := by
  simp only [ResetInstr.exec, hlt, cond_true]
  refine ⟨Cpu.reg_setReg_self, fun r hr => ?_, rfl, hlt⟩
  rw [Cpu.reg_setReg_of_ne hr, Cpu.reg_setMem]

theorem exec_cmp (s : Cpu) (rn rm : Fin 16) :
    let s' := (ResetInstr.cmp rn rm).exec s
    (∀ r, s'.reg r = s.reg r) ∧ s'.core.mem = s.core.mem ∧ Untouched s s' :=
  ⟨fun _ => rfl, rfl, .setFlags s _ _ _ _⟩

theorem untouched_ldrlt {rt rn : Fin 16} (hrt : rt ≠ sp) (hrn : rn ≠ sp) :
    Untouched s ((ResetInstr.ldrlt rt rn).exec s) := by
  rw [ResetInstr.exec]
  cases s.lt
  · exact .refl s
  · exact (Untouched.setReg s _ hrt).trans (.setReg _ _ hrn)

theorem untouched_strlt {rt rn : Fin 16} (hrn : rn ≠ sp) :
    Untouched s ((ResetInstr.strlt rt rn).exec s) := by
  rw [ResetInstr.exec]
  cases s.lt
  · exact .refl s
  · exact (Untouched.setMem s _).trans (.setReg _ _ hrn)

/-- One pass of `copy_data`: it moves a word and goes back, or ends. -/
theorem copy_pass (pre post : List ResetInstr) (s : Cpu) :
    ∃ s', Untouched s s' ∧
      if (s.reg 1).slt (s.reg 2) then
        Reaches (pre ++ copyData ++ post) (pre.length, s) (pre.length, s') ∧
          s'.reg 0 = s.reg 0 + 4 ∧ s'.reg 1 = s.reg 1 + 4 ∧ s'.reg 2 = s.reg 2 ∧
          s'.core.mem = Function.update s.core.mem (s.reg 1) (s.core.mem (s.reg 0))
      else
        Reaches (pre ++ copyData ++ post) (pre.length, s) (pre.length + 4, s') ∧
          s'.core.mem = s.core.mem := by
  obtain ⟨hregs, hmem, hkept⟩ := exec_cmp s 1 2
  have hslt := Cpu.lt_cmp s 1 2
  set s₁ := (ResetInstr.cmp 1 2).exec s
  have hkept₂ : Untouched s₁ ((ResetInstr.ldrlt 3 0).exec s₁) :=
    untouched_ldrlt (by decide) (by decide)
  set s₂ := (ResetInstr.ldrlt 3 0).exec s₁ with hs₂
  have hkept₃ : Untouched s₂ ((ResetInstr.strlt 3 1).exec s₂) := untouched_strlt (by decide)
  set s₃ := (ResetInstr.strlt 3 1).exec s₂ with hs₃
  have hblock : Reaches (pre ++ copyData ++ post) (pre.length, s) (pre.length + 3, s₃) := by
    have h := reaches_block pre [.cmp 1 2, .ldrlt 3 0, .strlt 3 1] (.blt 3 :: post) rfl s
    simpa [copyData] using h
  have hbranch : Reaches (pre ++ copyData ++ post) (pre.length + 3, s₃)
      (if s₃.lt then pre.length else pre.length + 4, s₃) := by
    have h := reaches_blt (pre ++ [.cmp 1 2, .ldrlt 3 0, .strlt 3 1]) post 3 s₃
    simpa [copyData] using h
  refine ⟨s₃, (hkept.trans hkept₂).trans hkept₃, ?_⟩
  cases hcond : (s.reg 1).slt (s.reg 2) with
  | false =>
    have hlt : s₁.lt = false := hslt.trans hcond
    have h₂ : s₂ = s₁ := by rw [hs₂, ResetInstr.exec, hlt, cond_false]
    have h₃ : s₃ = s₁ := by rw [hs₃, h₂, ResetInstr.exec, hlt, cond_false]
    rw [h₃, hlt] at hbranch
    rw [h₃] at hblock
    rw [h₃]
    exact ⟨hblock.trans hbranch, hmem⟩
  | true =>
    have hlt : s₁.lt = true := hslt.trans hcond
    obtain ⟨h3, h0, hother, hmem₂, hlt₂⟩ := exec_ldrlt 3 0 (s := s₁) (by decide) hlt
    obtain ⟨h1, hother₃, hmem₃, hlt₃⟩ := exec_strlt 3 1 (s := s₂) (hlt₂.trans hlt)
    rw [← hs₂] at h3 h0 hother hmem₂ hlt₂
    rw [← hs₃] at h1 hother₃ hmem₃ hlt₃
    have hdst : s₂.reg 1 = s.reg 1 := by rw [hother 1 (by decide) (by decide), hregs]
    rw [hlt₃, hlt₂, hlt, if_pos rfl] at hbranch
    refine ⟨hblock.trans hbranch, ?_, ?_, ?_, ?_⟩
    · rw [hother₃ 0 (by decide), h0, hregs]
    · rw [h1, hdst]
    · rw [hother₃ 2 (by decide), hother 2 (by decide) (by decide), hregs]
    · rw [hmem₃, h3, hmem₂, hmem, hdst, hregs]

/-- **The loop `copy_data`**: the words from `r0` on go to `r1` on, up to `r2`. -/
theorem copy_loop (pre post : List ResetInstr) {s : Cpu} (k : Nat)
    (hk : wordsTo (s.reg 1) (s.reg 2) = k) (hend : (s.reg 2).toInt ≤ 2 ^ 31 - 4) :
    ∃ s', Reaches (pre ++ copyData ++ post) (pre.length, s) (pre.length + 4, s') ∧
      s'.core.mem = copyWords k s.core.mem (s.reg 0) (s.reg 1) ∧ Untouched s s' := by
  induction k generalizing s with
  | zero =>
    obtain ⟨s', hkept, hpass⟩ := copy_pass pre post s
    cases hcond : (s.reg 1).slt (s.reg 2) with
    | true =>
      rw [wordsTo_of_slt hcond hend] at hk
      cases hk
    | false =>
      rw [hcond] at hpass
      exact ⟨s', hpass.1, hpass.2, hkept⟩
  | succ k ih =>
    obtain ⟨s₁, hkept, hpass⟩ := copy_pass pre post s
    cases hcond : (s.reg 1).slt (s.reg 2) with
    | false =>
      rw [wordsTo_of_not_slt hcond] at hk
      cases hk
    | true =>
      rw [hcond, if_pos rfl] at hpass
      obtain ⟨hback, h0, h1, h2, hmem⟩ := hpass
      rw [wordsTo_of_slt hcond hend, ← h1, ← h2] at hk
      obtain ⟨s', hreach, hmem', hrest⟩ := ih (Nat.succ.inj hk) (h2 ▸ hend)
      refine ⟨s', hback.trans hreach, ?_, hkept.trans hrest⟩
      rw [hmem', hmem, h0, h1, copyWords]

/-- One pass of `bss_loop`. -/
theorem clear_pass (pre post : List ResetInstr) (s : Cpu) :
    ∃ s', Untouched s s' ∧
      if (s.reg 0).slt (s.reg 1) then
        Reaches (pre ++ bssLoop ++ post) (pre.length, s) (pre.length, s') ∧
          s'.reg 0 = s.reg 0 + 4 ∧ s'.reg 1 = s.reg 1 ∧ s'.reg 2 = s.reg 2 ∧
          s'.core.mem = Function.update s.core.mem (s.reg 0) (s.reg 2)
      else
        Reaches (pre ++ bssLoop ++ post) (pre.length, s) (pre.length + 3, s') ∧
          s'.core.mem = s.core.mem := by
  obtain ⟨hregs, hmem, hkept⟩ := exec_cmp s 0 1
  have hslt := Cpu.lt_cmp s 0 1
  set s₁ := (ResetInstr.cmp 0 1).exec s
  have hkept₂ : Untouched s₁ ((ResetInstr.strlt 2 0).exec s₁) := untouched_strlt (by decide)
  set s₂ := (ResetInstr.strlt 2 0).exec s₁ with hs₂
  have hblock : Reaches (pre ++ bssLoop ++ post) (pre.length, s) (pre.length + 2, s₂) := by
    have h := reaches_block pre [.cmp 0 1, .strlt 2 0] (.blt 2 :: post) rfl s
    simpa [bssLoop] using h
  have hbranch : Reaches (pre ++ bssLoop ++ post) (pre.length + 2, s₂)
      (if s₂.lt then pre.length else pre.length + 3, s₂) := by
    have h := reaches_blt (pre ++ [.cmp 0 1, .strlt 2 0]) post 2 s₂
    simpa [bssLoop] using h
  refine ⟨s₂, hkept.trans hkept₂, ?_⟩
  cases hcond : (s.reg 0).slt (s.reg 1) with
  | false =>
    have hlt : s₁.lt = false := hslt.trans hcond
    have h₂ : s₂ = s₁ := by rw [hs₂, ResetInstr.exec, hlt, cond_false]
    rw [h₂, hlt] at hbranch
    rw [h₂] at hblock
    rw [h₂]
    exact ⟨hblock.trans hbranch, hmem⟩
  | true =>
    have hlt : s₁.lt = true := hslt.trans hcond
    obtain ⟨h0, hother, hmem₂, hlt₂⟩ := exec_strlt 2 0 (s := s₁) hlt
    rw [← hs₂] at h0 hother hmem₂ hlt₂
    rw [hlt₂, hlt, if_pos rfl] at hbranch
    refine ⟨hblock.trans hbranch, ?_, ?_, ?_, ?_⟩
    · rw [h0, hregs]
    · rw [hother 1 (by decide), hregs]
    · rw [hother 2 (by decide), hregs]
    · rw [hmem₂, hmem, hregs, hregs]

/-- **The loop `bss_loop`**: the words from `r0` up to `r1` get the value of `r2`. -/
theorem clear_loop (pre post : List ResetInstr) {s : Cpu} (k : Nat)
    (hk : wordsTo (s.reg 0) (s.reg 1) = k) (hend : (s.reg 1).toInt ≤ 2 ^ 31 - 4) :
    ∃ s', Reaches (pre ++ bssLoop ++ post) (pre.length, s) (pre.length + 3, s') ∧
      s'.core.mem = storeWords s.core.mem (s.reg 0) (List.replicate k (s.reg 2)) ∧
      Untouched s s' := by
  induction k generalizing s with
  | zero =>
    obtain ⟨s', hkept, hpass⟩ := clear_pass pre post s
    cases hcond : (s.reg 0).slt (s.reg 1) with
    | true =>
      rw [wordsTo_of_slt hcond hend] at hk
      cases hk
    | false =>
      rw [hcond] at hpass
      exact ⟨s', hpass.1, hpass.2, hkept⟩
  | succ k ih =>
    obtain ⟨s₁, hkept, hpass⟩ := clear_pass pre post s
    cases hcond : (s.reg 0).slt (s.reg 1) with
    | false =>
      rw [wordsTo_of_not_slt hcond] at hk
      cases hk
    | true =>
      rw [hcond, if_pos rfl] at hpass
      obtain ⟨hback, h0, h1, h2, hmem⟩ := hpass
      rw [wordsTo_of_slt hcond hend, ← h0, ← h1] at hk
      obtain ⟨s', hreach, hmem', hrest⟩ := ih (Nat.succ.inj hk) (h1 ▸ hend)
      refine ⟨s', hback.trans hreach, ?_, hkept.trans hrest⟩
      rw [hmem', hmem, h0, h2, List.replicate_succ, storeWords]

end Loops

/-! ### The blocks -/

section Blocks

variable {s : Cpu}

/-- The top of the stack of a mode. -/
def Symbols.stackTop (y : Symbols) : Mode → Word
  | .fiq => y.fiqStackTop
  | .irq => y.irqStackTop
  | .abt => y.abtStackTop
  | .und => y.undStackTop
  | .usr | .sys => y.sysStackTop
  | .svc => y.svcStackTop

/-- The stack pointers. -/
theorem stackCode_spec (y : Symbols) (s : Cpu) :
    let s' := (stackCode y).foldl ResetInstr.exec s
    s'.core.psr.mode = .svc ∧ (∀ m : Mode, s'.core.file m.base sp = y.stackTop m) ∧
      (s'.core.psr.bits.getLsbD 1 = true ∧ s'.core.psr.bits.getLsbD 2 = true) ∧
      s'.core.mem = s.core.mem ∧ s'.sctlr = s.sctlr ∧ s'.done = s.done := by
  refine ⟨rfl, fun m => by cases m <;> rfl, ?_, rfl, rfl, rfl⟩
  change ((_ &&& ~~~0x7) ||| (0x6 : BitVec 27)).getLsbD 1 = true ∧
    ((_ &&& ~~~0x7) ||| (0x6 : BitVec 27)).getLsbD 2 = true
  rw [BitVec.getLsbD_or, BitVec.getLsbD_or]
  exact ⟨Bool.or_true _, Bool.or_true _⟩

/-- The caches and the MMU. -/
theorem controlCode_spec (s : Cpu) :
    let s' := controlCode.foldl ResetInstr.exec s
    (∀ m, s'.core.file m sp = s.core.file m sp) ∧ s'.core.psr = s.core.psr ∧
      s'.core.mem = s.core.mem ∧
      s'.sctlr = s.sctlr &&& ~~~0x1005 ∧
      s'.done = s.done ++ [.invalidateTlb, .invalidateCaches] := by
  have hkept : ∀ x₀ x₁ x₂ x₃ : Word,
      Untouched s ((((s.setReg 0 x₀).setReg 0 x₁).setReg 0 x₂).setReg 0 x₃) := fun x₀ x₁ x₂ x₃ =>
    (((Untouched.setReg s x₀ (by decide)).trans (.setReg _ x₁ (by decide))).trans
      (.setReg _ x₂ (by decide))).trans (.setReg _ x₃ (by decide))
  refine ⟨(hkept _ _ _ _).tops, rfl, rfl, ?_, ?_⟩
  · simp only [controlCode, List.foldl_cons, List.foldl_nil, ResetInstr.exec, Cpu.reg_setReg_self]
    rw [BitVec.and_assoc, BitVec.and_assoc]
    rfl
  · simp only [controlCode, List.foldl_cons, List.foldl_nil, ResetInstr.exec, List.append_assoc]
    rfl

/-- A block load puts the words of the block into its registers. -/
theorem map_loadRegs {regs : Fin 16 → Word} {mem : Word → Word} {a : Word} {list : List (Fin 16)}
    (hnodup : list.Nodup) : list.map (loadRegs regs mem a list) = image mem list.length a := by
  induction list generalizing regs a with
  | nil => rfl
  | cons r list ih =>
    obtain ⟨hr, hrest⟩ := List.nodup_cons.mp hnodup
    rw [List.map_cons, loadRegs, loadRegs_of_notMem hr, Function.update_self, List.length_cons,
      image, ih hrest]

theorem storeWords_append {mem : Word → Word} {a : Word} (ws ws' : List Word) :
    storeWords mem a (ws ++ ws') =
      storeWords (storeWords mem a ws) (a + BitVec.ofNat 32 (4 * ws.length)) ws' := by
  induction ws generalizing mem a with
  | nil => simp [storeWords]
  | cons w ws ih =>
    rw [List.cons_append, storeWords, storeWords, ih, BitVec.add_assoc]
    congr 2
    rw [List.length_cons, Nat.mul_succ, Nat.add_comm, BitVec.ofNat_add]
    rfl

theorem image_append {mem : Word → Word} {a : Word} (j k : Nat) :
    image mem (j + k) a = image mem j a ++ image mem k (a + BitVec.ofNat 32 (4 * j)) := by
  induction j generalizing a with
  | zero => simp [image]
  | succ j ih =>
    rw [Nat.succ_add, image, image, ih, List.cons_append, BitVec.add_assoc]
    congr 3
    rw [Nat.mul_succ, Nat.add_comm, BitVec.ofNat_add]
    rfl

/-- A pair of block transfers moves eight words, and both addresses behind them. -/
theorem exec_move (s : Cpu) :
    let s' := (ResetInstr.stmia 1 r2r9).exec ((ResetInstr.ldmia 0 r2r9).exec s)
    s'.core.mem = storeWords s.core.mem (s.reg 1) (image s.core.mem 8 (s.reg 0)) ∧
      s'.reg 0 = s.reg 0 + 32 ∧ s'.reg 1 = s.reg 1 + 32 ∧ Untouched s s' := by
  set s₁ := (ResetInstr.ldmia 0 r2r9).exec s with hs₁
  have hregs : ∀ r, s₁.reg r = Function.update (loadRegs s.core.regs s.core.mem (s.reg 0) r2r9) 0
      (s.reg 0 + 32) r := fun r => Cpu.reg_setRegs
  have hkept : Untouched s s₁ := by
    apply Untouched.setRegs
    rw [Function.update_of_ne (by decide), loadRegs_of_notMem (by decide)]
    rfl
  have h1 : s₁.reg 1 = s.reg 1 := by
    rw [hregs, Function.update_of_ne (by decide), loadRegs_of_notMem (by decide)]
    rfl
  have hlist : r2r9.map s₁.reg = image s.core.mem 8 (s.reg 0) := by
    have hloaded : r2r9.map (loadRegs s.core.regs s.core.mem (s.reg 0) r2r9) =
        image s.core.mem 8 (s.reg 0) := map_loadRegs (by decide)
    rw [← hloaded]
    refine List.map_congr_left fun r hr => ?_
    rw [hregs, Function.update_of_ne]
    rintro rfl
    exact absurd hr (by decide)
  refine ⟨?_, ?_, ?_, ?_⟩
  · change storeWords s₁.core.mem (s₁.reg 1) (r2r9.map s₁.reg) = _
    rw [hlist, h1]
    rfl
  · rw [ResetInstr.exec, Cpu.reg_setReg_of_ne (by decide), Cpu.reg_setMem, hregs,
      Function.update_self]
  · rw [ResetInstr.exec, Cpu.reg_setReg_self, h1]
    rfl
  · rw [ResetInstr.exec]
    exact (hkept.trans (.setMem _ _)).trans (.setReg _ _ (by decide))

/-- The vectors. -/
theorem vectorCode_spec (y : Symbols) (s : Cpu) (hlow : 64 ≤ y.vectors.toNat)
    (hfit : y.vectors.toNat + 64 ≤ 2 ^ 32) :
    let s' := (vectorCode y).foldl ResetInstr.exec s
    s'.core.mem = storeWords s.core.mem 0 (image s.core.mem 16 y.vectors) ∧ Untouched s s' := by
  set s₁ := (s.setReg 0 y.vectors).setReg 1 0
  have h0 : s₁.reg 0 = y.vectors := by
    rw [Cpu.reg_setReg_of_ne (by decide), Cpu.reg_setReg_self]
  have h1 : s₁.reg 1 = 0 := Cpu.reg_setReg_self
  have hkept : Untouched s s₁ := (Untouched.setReg s _ (by decide)).trans (.setReg _ _ (by decide))
  obtain ⟨hmem₂, h0₂, h1₂, hkept₂⟩ := exec_move s₁
  set s₂ := (ResetInstr.stmia 1 r2r9).exec ((ResetInstr.ldmia 0 r2r9).exec s₁)
  obtain ⟨hmem₃, -, -, hkept₃⟩ := exec_move s₂
  refine ⟨?_, (hkept.trans hkept₂).trans hkept₃⟩
  change ((ResetInstr.stmia 1 r2r9).exec ((ResetInstr.ldmia 0 r2r9).exec s₂)).core.mem = _
  have hnext : (y.vectors + 32).toNat = y.vectors.toNat + 32 := by
    rw [BitVec.toNat_add]
    exact Nat.mod_eq_of_lt (by show y.vectors.toNat + 32 < 2 ^ 32; omega)
  have hsecond : image s₂.core.mem 8 (y.vectors + 32) = image s.core.mem 8 (y.vectors + 32) := by
    refine image_congr (by omega) fun b hlo hhi => ?_
    rw [hmem₂]
    refine storeWords_of_outside ?_ (.inr ?_)
    · rw [image_length, h1]
      decide
    · rw [image_length, h1]
      show 0 + 4 * 8 ≤ b.toNat
      omega
  rw [hmem₃, h0₂, h1₂, h0, h1, hsecond, hmem₂, h0, h1]
  exact (image_append 8 8 ▸ storeWords_append _ _).symm

end Blocks

/-! ### The handler -/

/-- The words of `.data` and of `.bss`. -/
def Symbols.dataWords (y : Symbols) : Nat := wordsTo y.dataStart y.dataEnd

def Symbols.bssWords (y : Symbols) : Nat := wordsTo y.bssStart y.bssEnd

/-- The sections begin at word addresses, none of them lies on the vectors at 0, and `.data` lies
apart from its image and from `.bss`. No end is in the last word below the signed limit. -/
structure Symbols.Placed (y : Symbols) : Prop where
  aligned : 4 ∣ y.vectors.toNat ∧ 4 ∣ y.dataLoadaddr.toNat ∧ 4 ∣ y.dataStart.toNat ∧
    4 ∣ y.bssStart.toNat
  vectors : 64 ≤ y.vectors.toNat ∧ y.vectors.toNat + 64 ≤ 2 ^ 32
  load : 64 ≤ y.dataLoadaddr.toNat ∧ y.dataLoadaddr.toNat + 4 * y.dataWords ≤ 2 ^ 32
  data : 64 ≤ y.dataStart.toNat ∧ y.dataStart.toNat + 4 * y.dataWords ≤ 2 ^ 32
  bss : 64 ≤ y.bssStart.toNat ∧ y.bssStart.toNat + 4 * y.bssWords ≤ 2 ^ 32
  load_data : y.dataLoadaddr.toNat + 4 * y.dataWords ≤ y.dataStart.toNat ∨
    y.dataStart.toNat + 4 * y.dataWords ≤ y.dataLoadaddr.toNat
  data_bss : y.dataStart.toNat + 4 * y.dataWords ≤ y.bssStart.toNat ∨
    y.bssStart.toNat + 4 * y.bssWords ≤ y.dataStart.toNat
  signed : y.dataEnd.toInt ≤ 2 ^ 31 - 4 ∧ y.bssEnd.toInt ≤ 2 ^ 31 - 4

/-- What the C code finds. -/
structure Prepared (y : Symbols) (s s' : Cpu) : Prop where
  supervisor : s'.core.psr.mode = .svc
  masked : s'.core.psr.bits.getLsbD 1 = true ∧ s'.core.psr.bits.getLsbD 2 = true
  stackPointers : ∀ m : Mode, s'.core.file m.base sp = y.stackTop m
  control : s'.sctlr = s.sctlr &&& ~~~0x1005
  maintained : s'.done = s.done ++ [.invalidateTlb, .invalidateCaches]
  vectors : Stored s'.core.mem 0 (image s.core.mem 16 y.vectors)
  data : Stored s'.core.mem y.dataStart (image s.core.mem y.dataWords y.dataLoadaddr)
  bss : Stored s'.core.mem y.bssStart (List.replicate y.bssWords 0)
  rest : ∀ b : Word, 64 ≤ b.toNat →
    b.toNat < y.dataStart.toNat ∨ y.dataStart.toNat + 4 * y.dataWords ≤ b.toNat →
    b.toNat < y.bssStart.toNat ∨ y.bssStart.toNat + 4 * y.bssWords ≤ b.toNat →
    s'.core.mem b = s.core.mem b

/-- Three block stores that do not meet. -/
theorem Symbols.Placed.stored {y : Symbols} (h : y.Placed) (mem : Word → Word) :
    let written := storeWords (storeWords (storeWords mem 0 (image mem 16 y.vectors))
      y.dataStart (image mem y.dataWords y.dataLoadaddr)) y.bssStart (List.replicate y.bssWords 0)
    Stored written 0 (image mem 16 y.vectors) ∧
      Stored written y.dataStart (image mem y.dataWords y.dataLoadaddr) ∧
      Stored written y.bssStart (List.replicate y.bssWords 0) ∧
      ∀ b : Word, 64 ≤ b.toNat →
        b.toNat < y.dataStart.toNat ∨ y.dataStart.toNat + 4 * y.dataWords ≤ b.toNat →
        b.toNat < y.bssStart.toNat ∨ y.bssStart.toNat + 4 * y.bssWords ≤ b.toNat →
        written b = mem b := by
  obtain ⟨hdata, hdata'⟩ := h.data
  obtain ⟨hbss, hbss'⟩ := h.bss
  have hapart := h.data_bss
  have outside_vectors : ∀ (m : Word → Word) (b : Word), 64 ≤ b.toNat →
      storeWords m 0 (image mem 16 y.vectors) b = m b := fun m b hb =>
    storeWords_of_outside (by rw [image_length]; decide)
      (.inr (by rw [image_length]; exact hb))
  have outside_data : ∀ (m : Word → Word) (b : Word),
      b.toNat < y.dataStart.toNat ∨ y.dataStart.toNat + 4 * y.dataWords ≤ b.toNat →
      storeWords m y.dataStart (image mem y.dataWords y.dataLoadaddr) b = m b := fun m b hb =>
    storeWords_of_outside (by rw [image_length]; exact hdata') (by rw [image_length]; exact hb)
  have outside_bss : ∀ (m : Word → Word) (b : Word),
      b.toNat < y.bssStart.toNat ∨ y.bssStart.toNat + 4 * y.bssWords ≤ b.toNat →
      storeWords m y.bssStart (List.replicate y.bssWords 0) b = m b := fun m b hb =>
    storeWords_of_outside (by rw [List.length_replicate]; exact hbss')
      (by rw [List.length_replicate]; exact hb)
  refine ⟨?_, ?_, ?_, fun b hlow hd hb => ?_⟩
  · have hstored : Stored (storeWords mem 0 (image mem 16 y.vectors)) 0
        (image mem 16 y.vectors) := stored_storeWords (by rw [image_length]; decide)
    refine hstored.congr (by rw [image_length]; decide) fun b _ hb => ?_
    have hb' : b.toNat < 64 := by
      rw [image_length] at hb
      exact hb
    rw [outside_bss _ _ (.inl (by omega)), outside_data _ _ (.inl (by omega))]
  · refine (stored_storeWords (by rw [image_length]; exact hdata')).congr
      (by rw [image_length]; exact hdata') fun b hlo hhi => outside_bss _ _ ?_
    rw [image_length] at hhi
    omega
  · exact stored_storeWords (by rw [List.length_replicate]; exact hbss')
  · rw [outside_bss _ _ hb, outside_data _ _ hd, outside_vectors _ _ hlow]

/-- Three registers loaded, as before each loop. -/
theorem exec_loads (s : Cpu) (x₀ x₁ x₂ : Word) :
    let s' := [ResetInstr.load 0 x₀, .load 1 x₁, .load 2 x₂].foldl ResetInstr.exec s
    s'.reg 0 = x₀ ∧ s'.reg 1 = x₁ ∧ s'.reg 2 = x₂ ∧ s'.core.mem = s.core.mem ∧ Untouched s s' := by
  refine ⟨?_, ?_, Cpu.reg_setReg_self, rfl, ?_⟩
  · change (((s.setReg 0 x₀).setReg 1 x₁).setReg 2 x₂).reg 0 = x₀
    rw [Cpu.reg_setReg_of_ne (by decide), Cpu.reg_setReg_of_ne (by decide), Cpu.reg_setReg_self]
  · change (((s.setReg 0 x₀).setReg 1 x₁).setReg 2 x₂).reg 1 = x₁
    rw [Cpu.reg_setReg_of_ne (by decide), Cpu.reg_setReg_self]
  · exact ((Untouched.setReg s x₀ (by decide)).trans (.setReg _ x₁ (by decide))).trans
      (.setReg _ x₂ (by decide))

/-- The code up to `copy_data`. -/
def beforeCopy (y : Symbols) : List ResetInstr :=
  stackCode y ++ controlCode ++ vectorCode y ++ dataCode y

/-- **Reset.** For every layout of the sections, memory and state of the core, the handler comes to
its call of `mmu_init`, with everything prepared that C code needs, and nothing else written. -/
theorem reset_prepares {y : Symbols} (h : y.Placed) (s : Cpu) :
    ∃ s', Reaches (resetCode y) (0, s) ((resetCode y).length, s') ∧ Prepared y s s' := by
  obtain ⟨hmode₁, htops₁, hmasked₁, hmem₁, hsctlr₁, hdone₁⟩ := stackCode_spec y s
  set s₁ := (stackCode y).foldl ResetInstr.exec s with hs₁
  obtain ⟨htops₂, hpsr₂, hmem₂, hsctlr₂, hdone₂⟩ := controlCode_spec s₁
  set s₂ := controlCode.foldl ResetInstr.exec s₁ with hs₂
  obtain ⟨hmem₃, hkept₃⟩ := vectorCode_spec y s₂ h.vectors.1 h.vectors.2
  set s₃ := (vectorCode y).foldl ResetInstr.exec s₂ with hs₃
  obtain ⟨h0₄, h1₄, h2₄, hmem₄, hkept₄⟩ := exec_loads s₃ y.dataLoadaddr y.dataStart y.dataEnd
  set s₄ := [ResetInstr.load 0 y.dataLoadaddr, .load 1 y.dataStart, .load 2 y.dataEnd].foldl
    ResetInstr.exec s₃ with hs₄
  have hfirst : Reaches (resetCode y) (0, s) ((beforeCopy y).length, s₄) := by
    have hreach := reaches_block [] (beforeCopy y) (copyData ++ bssCode y ++ bssLoop) rfl s
    have hstate : (beforeCopy y).foldl ResetInstr.exec s = s₄ := by
      rw [beforeCopy, List.foldl_append, List.foldl_append, List.foldl_append, ← hs₁, ← hs₂, ← hs₃]
      rfl
    rw [hstate, List.nil_append, List.length_nil, Nat.zero_add, ← List.append_assoc,
      ← List.append_assoc] at hreach
    exact hreach
  obtain ⟨s₅, hcopy, hmem₅, hkept₅⟩ := copy_loop (beforeCopy y) (bssCode y ++ bssLoop) (s := s₄)
    y.dataWords (by rw [h1₄, h2₄]; rfl) (by rw [h2₄]; exact h.signed.1)
  obtain ⟨h0₆, h1₆, h2₆, hmem₆, hkept₆⟩ := exec_loads s₅ y.bssStart y.bssEnd 0
  set s₆ := [ResetInstr.load 0 y.bssStart, .load 1 y.bssEnd, .load 2 0].foldl
    ResetInstr.exec s₅ with hs₆
  have hsecond : Reaches (resetCode y) ((beforeCopy y ++ copyData).length, s₅)
      ((beforeCopy y ++ copyData ++ bssCode y).length, s₆) := by
    have hreach := reaches_block (beforeCopy y ++ copyData) (bssCode y) bssLoop rfl s₅
    have hlength : (beforeCopy y ++ copyData ++ bssCode y).length =
        (beforeCopy y ++ copyData).length + (bssCode y).length := List.length_append
    rw [hlength]
    exact hreach
  obtain ⟨s₇, hclear, hmem₇, hkept₇⟩ := clear_loop (beforeCopy y ++ copyData ++ bssCode y) []
    (s := s₆) y.bssWords (by rw [h0₆, h1₆]; rfl) (by rw [h1₆]; exact h.signed.2)
  rw [← List.append_assoc] at hcopy
  rw [List.append_nil] at hclear
  have hkept : Untouched s₂ s₇ :=
    (((hkept₃.trans hkept₄).trans hkept₅).trans hkept₆).trans hkept₇
  -- The image of `.data` is what it was before the vectors were copied.
  have himage : image s₃.core.mem y.dataWords y.dataLoadaddr =
      image s.core.mem y.dataWords y.dataLoadaddr := by
    have hlow := h.load.1
    rw [hmem₃, hmem₂, hmem₁]
    refine image_congr h.load.2 fun b hlo _ => storeWords_of_outside ?_ (.inr ?_)
    · rw [image_length]
      decide
    · rw [image_length]
      show 0 + 4 * 16 ≤ b.toNat
      omega
  have hmem : s₇.core.mem = storeWords (storeWords (storeWords s.core.mem 0
      (image s.core.mem 16 y.vectors)) y.dataStart (image s.core.mem y.dataWords y.dataLoadaddr))
      y.bssStart (List.replicate y.bssWords 0) := by
    rw [hmem₇, hmem₆, hmem₅, h0₆, h2₆, h0₄, h1₄,
      copyWords_eq h.load.2 h.data.2 h.load_data, hmem₄, himage, hmem₃, hmem₂, hmem₁]
  obtain ⟨hvectors, hdata, hbss, hrest⟩ := h.stored s.core.mem
  rw [← hmem] at hvectors hdata hbss hrest
  refine ⟨s₇, ?_, ?_⟩
  · have hcopy' : Reaches (resetCode y) ((beforeCopy y).length, s₄)
        ((beforeCopy y ++ copyData).length, s₅) := by
      rw [List.length_append]
      exact hcopy
    have hclear' : Reaches (resetCode y) ((beforeCopy y ++ copyData ++ bssCode y).length, s₆)
        ((resetCode y).length, s₇) := by
      have hlength : (resetCode y).length =
          (beforeCopy y ++ copyData ++ bssCode y).length + 3 := rfl
      rw [hlength]
      exact hclear
    exact ((hfirst.trans hcopy').trans hsecond).trans hclear'
  · exact
      { supervisor := hkept.mode.trans (hpsr₂ ▸ hmode₁)
        masked := by
          rw [hkept.masks 1 (by decide), hkept.masks 2 (by decide), hpsr₂]
          exact hmasked₁
        stackPointers := fun m => by rw [hkept.tops, htops₂, htops₁]
        control := by rw [hkept.sctlr, hsctlr₂, hsctlr₁]
        maintained := by rw [hkept.done, hdone₂, hdone₁]
        vectors := hvectors
        data := hdata
        bss := hbss
        rest := hrest }

/-- A layout of `linker.ld`: `.data` has six bytes and `.bss` three words. -/
def romLayout : Symbols where
  fiqStackTop := 0x70010000
  irqStackTop := 0x70011000
  abtStackTop := 0x70012000
  undStackTop := 0x70013000
  sysStackTop := 0x70014000
  svcStackTop := 0x70015000
  vectors := 0x60000000
  dataLoadaddr := 0x60001000
  dataStart := 0x70000000
  dataEnd := 0x70000006
  bssStart := 0x70000008
  bssEnd := 0x70000014

theorem romLayout_placed : romLayout.Placed where
  aligned := by decide
  vectors := by decide
  load := by decide
  data := by decide
  bss := by decide
  load_data := by decide
  data_bss := by decide
  signed := by decide

/-- A core that was just reset, with no register known. -/
def resetCore (regs : Fin 16 → Word) (mem : Word → Word) : Cpu where
  core := { file := fun _ => regs, psr := ⟨.svc, 0⟩, spsr := fun _ => ⟨.svc, 0⟩, mem }
  sctlr := 0x00C50079
  done := []

/-- The board starts. -/
theorem reset_prepares_rom : ∃ s', Reaches (resetCode romLayout)
    (0, resetCore (fun _ => 0xDEADBEEF) fun a => a) ((resetCode romLayout).length, s') ∧
      Prepared romLayout (resetCore (fun _ => 0xDEADBEEF) fun a => a) s' :=
  reset_prepares romLayout_placed _

end ArmKernel.Boot
