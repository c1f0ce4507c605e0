/-
The registers of the interrupt distributor (`src/interrupt.c`).

A register is a word at an address, except for the enable bits: both enable banks read the same
words, a write to one bank sets bits of them and a write to the other clears bits. The shifted
`int` of the source is taken as the 32 bits that it is written as.

The functions do not check the identifier. `Independent` is the law for the calls of a run: a
call changes the field of its own interrupt, and calls for two interrupts commute. The banks have
1024 fields, and `independent_iff` says that the law is theirs alone.
-/
import ArmKernel.Support.Run
import ArmKernel.Support.Fields
import Mathlib.Algebra.Order.Group.Nat

namespace ArmKernel.Irq

open ArmKernel.Support

/-- `GIC_DIST_BASE`. -/
def gicDistBase : BitVec 32 := 0x1E001000

/-- `GICD_ISENABLER`. -/
def gicdIsenabler : BitVec 32 := gicDistBase + 0x100

/-- `GICD_ICENABLER`. -/
def gicdIcenabler : BitVec 32 := gicDistBase + 0x180

/-- `GICD_ISPENDR`, which follows the enable banks. -/
def gicdIspendr : BitVec 32 := gicDistBase + 0x200

/-- `GICD_IPRIORITYR`. -/
def gicdIpriorityr : BitVec 32 := gicDistBase + 0x400

/-- `GICD_ITARGETSR`. -/
def gicdItargetsr : BitVec 32 := gicDistBase + 0x800

/-- The word of 32 enable bits, or the word at an address. -/
inductive Register where
  | enables (n : Nat)
  | word (addr : BitVec 32)
  deriving DecidableEq

/-- What the registers hold. -/
abbrev Distributor := Register → BitVec 32

/-- The address lies in the bank that sets enable bits. -/
def InSetBank (addr : BitVec 32) : Prop := gicdIsenabler ≤ addr ∧ addr < gicdIcenabler

instance (addr : BitVec 32) : Decidable (InSetBank addr) := inferInstanceAs (Decidable (_ ∧ _))

/-- The address lies in the bank that clears them. -/
def InClearBank (addr : BitVec 32) : Prop := gicdIcenabler ≤ addr ∧ addr < gicdIspendr

instance (addr : BitVec 32) : Decidable (InClearBank addr) := inferInstanceAs (Decidable (_ ∧ _))

/-- The register that is read at an address. -/
def registerAt (addr : BitVec 32) : Register :=
  if InSetBank addr then .enables ((addr - gicdIsenabler).toNat / 4)
  else if InClearBank addr then .enables ((addr - gicdIcenabler).toNat / 4)
  else .word addr

/-- What a write of `value` makes of the register at the address. -/
def written (addr value old : BitVec 32) : BitVec 32 :=
  if InSetBank addr then old ||| value
  else if InClearBank addr then old &&& ~~~value
  else value

/-- `read_reg`. -/
def readReg (s : Distributor) (addr : BitVec 32) : BitVec 32 := s (registerAt addr)

/-- `write_reg`. -/
def writeReg (s : Distributor) (addr value : BitVec 32) : Distributor :=
  modifyAt s (registerAt addr) (written addr value)

/-- `interrupt_enable`. -/
def interruptEnable (s : Distributor) (interruptId : BitVec 32) : Distributor :=
  let regOffset := interruptId / 32
  let bitOffset := interruptId % 32
  writeReg s (gicdIsenabler + regOffset * 4) (1#32 <<< bitOffset.toNat)

/-- `interrupt_disable`. -/
def interruptDisable (s : Distributor) (interruptId : BitVec 32) : Distributor :=
  let regOffset := interruptId / 32
  let bitOffset := interruptId % 32
  writeReg s (gicdIcenabler + regOffset * 4) (1#32 <<< bitOffset.toNat)

/-- `interrupt_set_priority` and `interrupt_set_target`, which differ in the bank. -/
def setByte (bank : BitVec 32) (s : Distributor) (interruptId : BitVec 32) (byte : BitVec 8) :
    Distributor :=
  let regOffset := interruptId / 4
  let byteOffset := interruptId % 4
  let regAddr := bank + regOffset * 4
  let value := readReg s regAddr
  let value := value &&& ~~~((0xFF : BitVec 32) <<< (byteOffset.toNat * 8))
  let value := value ||| (byte.setWidth 32 <<< (byteOffset.toNat * 8))
  writeReg s regAddr value

/-- `interrupt_set_priority`. -/
def interruptSetPriority (s : Distributor) (interruptId : BitVec 32) (priority : BitVec 8) :
    Distributor :=
  setByte gicdIpriorityr s interruptId priority

/-- `interrupt_set_target`. -/
def interruptSetTarget (s : Distributor) (interruptId : BitVec 32) (cpuMask : BitVec 8) :
    Distributor :=
  setByte gicdItargetsr s interruptId cpuMask

/-- The functions. -/
inductive Operation where
  | enable
  | disable
  | setPriority (priority : BitVec 8)
  | setTarget (cpuMask : BitVec 8)

/-- The kind of an operation, without its argument. -/
inductive Kind where
  | enable
  | disable
  | setPriority
  | setTarget

def Operation.kind : Operation → Kind
  | .enable => .enable
  | .disable => .disable
  | .setPriority _ => .setPriority
  | .setTarget _ => .setTarget

/-- A call of one of the functions. -/
structure Call where
  operation : Operation
  interruptId : BitVec 32

def perform (s : Distributor) (call : Call) : Distributor :=
  match call.operation with
  | .enable => interruptEnable s call.interruptId
  | .disable => interruptDisable s call.interruptId
  | .setPriority priority => interruptSetPriority s call.interruptId priority
  | .setTarget cpuMask => interruptSetTarget s call.interruptId cpuMask

/-- Every call is possible in every state. -/
def step (s : Distributor) (call : Call) : Option Distributor := some (perform s call)

/-- Bits of a register. -/
structure Field where
  register : Register
  pos : Nat
  width : Nat

def Field.Has (field : Field) (register : Register) (i : Nat) : Prop :=
  register = field.register ∧ field.pos ≤ i ∧ i < field.pos + field.width

/-- The interrupts that a bank has fields for. -/
def bankSize : BitVec 32 := 1024

/-- The enable bit of an interrupt. -/
def enableField (id : BitVec 32) : Field where
  register := .enables (id.toNat / 32)
  pos := id.toNat % 32
  width := 1

/-- The byte of an interrupt in a bank. -/
def byteField (bank id : BitVec 32) : Field where
  register := .word (bank + (id / 4) * 4)
  pos := id.toNat % 4 * 8
  width := 8

/-- The field that the operation is for. -/
def Call.field (call : Call) : Field :=
  match call.operation with
  | .enable => enableField call.interruptId
  | .disable => enableField call.interruptId
  | .setPriority _ => byteField gicdIpriorityr call.interruptId
  | .setTarget _ => byteField gicdItargetsr call.interruptId

/-- The bit belongs to the interrupt of the call, which has a field in the bank. -/
def Call.Owns (call : Call) (register : Register) (i : Nat) : Prop :=
  call.interruptId < bankSize ∧ call.field.Has register i

/-- The call changes bits of its own field alone. -/
def OnlyOwn (s : Distributor) (call : Call) : Prop :=
  ∀ register i, ¬call.Owns register i →
    (perform s call register).getLsbD i = (s register).getLsbD i

/-- **The law of a run**: every call changes its own field alone, and in every state of the run two
of its calls for different interrupts commute. -/
structure Independent (s : Distributor) (calls : List Call) : Prop where
  own : Each step OnlyOwn s calls
  commute : ∀ c ∈ calls, ∀ d ∈ calls, c.interruptId ≠ d.interruptId →
    Along step (fun s => perform (perform s c) d = perform (perform s d) c) s calls

/-- The bits that an operation stores in its field. -/
def Operation.width : Operation → Nat
  | .enable => 1
  | .disable => 1
  | .setPriority _ => 8
  | .setTarget _ => 8

def Operation.value : (operation : Operation) → BitVec operation.width
  | .enable => 1#1
  | .disable => 0#1
  | .setPriority priority => priority
  | .setTarget cpuMask => cpuMask

section Addresses

variable {id addr bank value : BitVec 32}

/-- The address of a register, for an interrupt that has a field. -/
theorem toNat_regAddr (perRegister : BitVec 32) (h : id < bankSize) (hbank : bank.toNat ≤ 2 ^ 31) :
    (bank + id / perRegister * 4).toNat = bank.toNat + id.toNat / perRegister.toNat * 4 := by
  have hid : id.toNat < 1024 := h
  have hdiv : id.toNat / perRegister.toNat ≤ id.toNat := Nat.div_le_self _ _
  have hfour : (4 : BitVec 32).toNat = 4 := rfl
  rw [BitVec.toNat_add, BitVec.toNat_mul, BitVec.toNat_udiv, hfour]
  omega

theorem not_set_of_clear (h : InClearBank addr) : ¬InSetBank addr :=
  fun hset => absurd h.1 (BitVec.not_le.mpr hset.2)

/-- A write to the bank that sets. -/
theorem writeReg_set (s : Distributor) (h : InSetBank addr) (value : BitVec 32) :
    writeReg s addr value =
      modifyAt s (.enables ((addr - gicdIsenabler).toNat / 4)) fun old => old ||| value := by
  have hwritten : written addr value = fun old => old ||| value := by
    funext old
    exact if_pos h
  rw [writeReg, registerAt, if_pos h, hwritten]

/-- A write to the bank that clears. -/
theorem writeReg_clear (s : Distributor) (h : InClearBank addr) (value : BitVec 32) :
    writeReg s addr value =
      modifyAt s (.enables ((addr - gicdIcenabler).toNat / 4)) fun old => old &&& ~~~value := by
  have hwritten : written addr value = fun old => old &&& ~~~value := by
    funext old
    exact (if_neg (not_set_of_clear h)).trans (if_pos h)
  rw [writeReg, registerAt, if_neg (not_set_of_clear h), if_pos h, hwritten]

/-- The register at any other address is its word. -/
theorem registerAt_plain (hset : ¬InSetBank addr) (hclear : ¬InClearBank addr) :
    registerAt addr = .word addr :=
  (if_neg hset).trans (if_neg hclear)

theorem writeReg_plain (s : Distributor) (hset : ¬InSetBank addr) (hclear : ¬InClearBank addr)
    (value : BitVec 32) : writeReg s addr value = modifyAt s (.word addr) fun _ => value := by
  have hwritten : written addr value = fun _ => value := by
    funext old
    exact (if_neg hset).trans (if_neg hclear)
  rw [writeReg, registerAt_plain hset hclear, hwritten]

end Addresses

section Perform

variable {s : Distributor} {call : Call} {id : BitVec 32}

/-- Setting a bit, and clearing one, as fields of one bit. -/
theorem setField_one (x : BitVec 32) (pos : Nat) : setField x pos 1#1 = x ||| 1#32 <<< pos := by
  have hmask : (BitVec.allOnes 1).setWidth 32 = 1#32 := rfl
  have hvalue : (1#1).setWidth 32 = 1#32 := rfl
  rw [setField, hmask, hvalue]
  apply BitVec.eq_of_getLsbD_eq
  intro i hi
  rw [BitVec.getLsbD_or, BitVec.getLsbD_or, BitVec.getLsbD_and, BitVec.getLsbD_not,
    decide_eq_true hi, Bool.true_and]
  cases (1#32 <<< pos).getLsbD i
  · rw [Bool.not_false, Bool.and_true]
  · rw [Bool.or_true, Bool.or_true]

theorem setField_zero (x : BitVec 32) (pos : Nat) :
    setField x pos 0#1 = x &&& ~~~(1#32 <<< pos) := by
  have hmask : (BitVec.allOnes 1).setWidth 32 = 1#32 := rfl
  have hvalue : (0#1).setWidth 32 = 0#32 := rfl
  rw [setField, hmask, hvalue, BitVec.zero_shiftLeft, BitVec.or_zero]

/-- A byte bank lies behind the enable banks, with all its fields. -/
theorem setByte_eq (s : Distributor) {bank : BitVec 32} (hlow : gicdIspendr ≤ bank)
    (hbank : bank.toNat ≤ 2 ^ 31) (h : id < bankSize) (byte : BitVec 8) :
    setByte bank s id byte = modifyAt s (byteField bank id).register fun old =>
      setField old (byteField bank id).pos byte := by
  have haddr : (bank + id / 4 * 4).toNat = bank.toNat + id.toNat / 4 * 4 := toNat_regAddr 4 h hbank
  have hbehind : gicdIspendr ≤ bank + id / 4 * 4 := by
    rw [BitVec.le_def] at hlow ⊢
    omega
  have hclear : ¬InClearBank (bank + id / 4 * 4) :=
    fun hin => absurd hin.2 (BitVec.not_lt.mpr hbehind)
  have hset : ¬InSetBank (bank + id / 4 * 4) := by
    intro hin
    have hlt : bank + id / 4 * 4 < gicdIspendr := BitVec.lt_trans hin.2 (by decide)
    exact absurd hlt (BitVec.not_lt.mpr hbehind)
  have hread : readReg s (bank + id / 4 * 4) = s (.word (bank + id / 4 * 4)) := by
    rw [readReg, registerAt_plain hset hclear]
  rw [setByte, writeReg_plain s hset hclear, hread]
  rfl

/-- **The functions**, for an interrupt that has a field in the bank: each puts its bits into the
field. -/
theorem perform_eq (s : Distributor) (call : Call) (h : call.interruptId < bankSize) :
    perform s call = modifyAt s call.field.register fun old =>
      setField old call.field.pos call.operation.value := by
  obtain ⟨operation, id⟩ := call
  have hid : id.toNat < 1024 := h
  have hset : gicdIsenabler.toNat = 0x1E001100 := rfl
  have hclear : gicdIcenabler.toNat = 0x1E001180 := rfl
  have hpend : gicdIspendr.toNat = 0x1E001200 := rfl
  cases operation with
  | enable =>
    have haddr : (gicdIsenabler + id / 32 * 4).toNat = gicdIsenabler.toNat + id.toNat / 32 * 4 :=
      toNat_regAddr 32 h (by decide)
    have hbank : InSetBank (gicdIsenabler + id / 32 * 4) := by
      rw [InSetBank, BitVec.le_def, BitVec.lt_def]
      omega
    have hregister : (gicdIsenabler + id / 32 * 4 - gicdIsenabler).toNat / 4 = id.toNat / 32 := by
      rw [BitVec.toNat_sub_of_le hbank.1]
      omega
    have hwrite := writeReg_set s hbank (1#32 <<< (id % 32).toNat)
    rw [hregister] at hwrite
    refine hwrite.trans ?_
    congr 1
    funext old
    exact (setField_one old (id % 32).toNat).symm
  | disable =>
    have haddr : (gicdIcenabler + id / 32 * 4).toNat = gicdIcenabler.toNat + id.toNat / 32 * 4 :=
      toNat_regAddr 32 h (by decide)
    have hbank : InClearBank (gicdIcenabler + id / 32 * 4) := by
      rw [InClearBank, BitVec.le_def, BitVec.lt_def]
      omega
    have hregister : (gicdIcenabler + id / 32 * 4 - gicdIcenabler).toNat / 4 = id.toNat / 32 := by
      rw [BitVec.toNat_sub_of_le hbank.1]
      omega
    have hwrite := writeReg_clear s hbank (1#32 <<< (id % 32).toNat)
    rw [hregister] at hwrite
    refine hwrite.trans ?_
    congr 1
    funext old
    exact (setField_zero old (id % 32).toNat).symm
  | setPriority priority => exact setByte_eq s (by decide) (by decide) h priority
  | setTarget cpuMask => exact setByte_eq s (by decide) (by decide) h cpuMask

theorem field_width (call : Call) : call.field.width = call.operation.width := by
  obtain ⟨operation, id⟩ := call
  cases operation <;> rfl

/-- **One step.** A call for an interrupt with a field changes the field alone. -/
theorem onlyOwn_of_lt (s : Distributor) {call : Call} (h : call.interruptId < bankSize) :
    OnlyOwn s call := by
  intro register i hother
  rw [perform_eq s call h]
  by_cases hregister : register = call.field.register
  · subst hregister
    rw [modifyAt_self]
    by_cases hi : i < 32
    · have hout : ¬(call.field.pos ≤ i ∧ i < call.field.pos + call.operation.width) := by
        rintro ⟨hlow, hhigh⟩
        rw [← field_width] at hhigh
        exact hother ⟨h, rfl, hlow, hhigh⟩
      rw [getLsbD_setField _ _ _ hi, if_neg hout]
    · rw [BitVec.getLsbD_of_ge _ _ (Nat.not_lt.mp hi), BitVec.getLsbD_of_ge _ _ (Nat.not_lt.mp hi)]
  · rw [modifyAt_of_ne _ _ hregister]

end Perform

section Commute

variable {c d : Call}

/-- A byte bank, with the fields of its interrupts in the addresses up to the next one. -/
def ByteBank (bank : BitVec 32) : Prop := bank = gicdIpriorityr ∨ bank = gicdItargetsr

theorem field_cases (c : Call) : c.field = enableField c.interruptId ∨
    ∃ bank, ByteBank bank ∧ c.field = byteField bank c.interruptId := by
  obtain ⟨operation, id⟩ := c
  cases operation with
  | enable => exact Or.inl rfl
  | disable => exact Or.inl rfl
  | setPriority _ => exact Or.inr ⟨gicdIpriorityr, Or.inl rfl, rfl⟩
  | setTarget _ => exact Or.inr ⟨gicdItargetsr, Or.inr rfl, rfl⟩

/-- Bytes in one word are bytes of one bank, four interrupts to the word. -/
theorem byteField_register_eq {bank bank' id id' : BitVec 32} (h : id < bankSize)
    (h' : id' < bankSize) (hbank : ByteBank bank) (hbank' : ByteBank bank')
    (heq : (byteField bank id).register = (byteField bank' id').register) :
    id.toNat / 4 = id'.toNat / 4 := by
  have hword : bank + id / 4 * 4 = bank' + id' / 4 * 4 := Register.word.inj heq
  have hhalf : ∀ {bank}, ByteBank bank → bank.toNat ≤ 2 ^ 31 := by
    rintro bank (rfl | rfl) <;> decide
  have hleft : (bank + id / 4 * 4).toNat = bank.toNat + id.toNat / 4 * 4 :=
    toNat_regAddr 4 h (hhalf hbank)
  have hright : (bank' + id' / 4 * 4).toNat = bank'.toNat + id'.toNat / 4 * 4 :=
    toNat_regAddr 4 h' (hhalf hbank')
  have hpriority : gicdIpriorityr.toNat = 0x1E001400 := rfl
  have htarget : gicdItargetsr.toNat = 0x1E001800 := rfl
  have hid : id.toNat < 1024 := h
  have hid' : id'.toNat < 1024 := h'
  rw [hword] at hleft
  rcases hbank with rfl | rfl <;> rcases hbank' with rfl | rfl <;> omega

/-- **Fields of different interrupts** have no bit in common. -/
theorem fields_disjoint (hc : c.interruptId < bankSize) (hd : d.interruptId < bankSize)
    (hne : c.interruptId ≠ d.interruptId) (hregister : c.field.register = d.field.register) :
    c.field.pos + c.field.width ≤ d.field.pos ∨ d.field.pos + d.field.width ≤ c.field.pos := by
  have hid : c.interruptId.toNat ≠ d.interruptId.toNat := fun h => hne (BitVec.eq_of_toNat_eq h)
  rcases field_cases c with hcfield | ⟨bank, hbank, hcfield⟩ <;>
    rcases field_cases d with hdfield | ⟨bank', hbank', hdfield⟩ <;>
    rw [hcfield, hdfield] at hregister ⊢
  · have hword : c.interruptId.toNat / 32 = d.interruptId.toNat / 32 :=
      Register.enables.inj hregister
    show c.interruptId.toNat % 32 + 1 ≤ d.interruptId.toNat % 32 ∨
      d.interruptId.toNat % 32 + 1 ≤ c.interruptId.toNat % 32
    omega
  · cases hregister
  · cases hregister
  · have hword := byteField_register_eq hc hd hbank hbank' hregister
    show c.interruptId.toNat % 4 * 8 + 8 ≤ d.interruptId.toNat % 4 * 8 ∨
      d.interruptId.toNat % 4 * 8 + 8 ≤ c.interruptId.toNat % 4 * 8
    omega

/-- **Calls for different interrupts** that have fields commute. -/
theorem perform_comm (s : Distributor) (hc : c.interruptId < bankSize)
    (hd : d.interruptId < bankSize) (hne : c.interruptId ≠ d.interruptId) :
    perform (perform s c) d = perform (perform s d) c := by
  rw [perform_eq _ d hd, perform_eq _ c hc, perform_eq _ c hc, perform_eq _ d hd]
  refine modifyAt_comm s ?_
  intro hregister x
  have hdisjoint := fields_disjoint hc hd hne hregister
  rw [field_width, field_width] at hdisjoint
  exact setField_comm x c.operation.value d.operation.value hdisjoint

end Commute

section Runs

/-- **The run.** Calls for interrupts that have fields are independent. -/
theorem independent_of_lt {calls : List Call} (h : ∀ c ∈ calls, c.interruptId < bankSize)
    (s : Distributor) : Independent s calls := by
  constructor
  · induction calls generalizing s with
    | nil => trivial
    | cons c calls ih =>
      refine ⟨onlyOwn_of_lt s (h c List.mem_cons_self), ?_⟩
      intro s' _
      exact ih (fun d hd => h d (List.mem_cons_of_mem c hd)) s'
  · intro c hc d hd hne
    exact along_of_preserved (fun _ _ s' _ _ => perform_comm s' (h c hc) (h d hd) hne)
      (perform_comm s (h c hc) (h d hd) hne) calls

/-- An interrupt without a field owns nothing, so its call may change nothing. -/
theorem OnlyOwn.unchanged {s : Distributor} {call : Call} (h : OnlyOwn s call)
    (hid : ¬call.interruptId < bankSize) : perform s call = s := by
  funext register
  apply BitVec.eq_of_getLsbD_eq
  intro i _
  exact h register i fun howns => hid howns.1

/-- A write that changes its register. -/
theorem writeReg_ne {s : Distributor} {addr value : BitVec 32}
    (h : written addr value (s (registerAt addr)) ≠ s (registerAt addr)) :
    writeReg s addr value ≠ s := by
  intro heq
  have hregister := congrFun heq (registerAt addr)
  rw [writeReg, modifyAt_self] at hregister
  exact h hregister

theorem written_plain {addr : BitVec 32} (h : gicdIspendr ≤ addr) (value old : BitVec 32) :
    written addr value old = value := by
  have hclear : ¬InClearBank addr := fun hin => absurd hin.2 (BitVec.not_lt.mpr h)
  have hset : ¬InSetBank addr := fun hin =>
    absurd (BitVec.lt_trans hin.2 (by decide) : addr < gicdIspendr) (BitVec.not_lt.mpr h)
  exact (if_neg hset).trans (if_neg hclear)

/-- An odd mask shifted inside the word is not zero. -/
theorem shifted_ne_zero {mask : BitVec 32} (hmask : mask.getLsbD 0 = true) {pos : Nat}
    (h : pos < 32) : mask <<< pos ≠ 0 := by
  intro heq
  have hbit := congrArg (fun x => x.getLsbD pos) heq
  simp only [BitVec.getLsbD_shiftLeft, h, decide_true, Nat.lt_irrefl, decide_false, Bool.not_false,
    Nat.sub_self, hmask, Bool.and_true] at hbit
  rw [BitVec.ofNat_eq_ofNat, BitVec.getLsbD_zero] at hbit
  cases hbit

theorem bit_ne_zero (id : BitVec 32) : 1#32 <<< (id % 32).toNat ≠ 0 := by
  refine shifted_ne_zero rfl ?_
  rw [BitVec.toNat_umod]
  exact Nat.mod_lt _ (by decide)

/-- The register of an interrupt behind the bank, whose offset does not wrap. -/
theorem toNat_behind {bank id : BitVec 32} (hbank : bank.toNat ≤ 2 ^ 31) :
    (bank + id / 32 * 4).toNat = bank.toNat + id.toNat / 32 * 4 := by
  have hid := id.isLt
  have hunit : (32 : BitVec 32).toNat = 32 := rfl
  have hfour : (4 : BitVec 32).toNat = 4 := rfl
  rw [BitVec.toNat_add, BitVec.toNat_mul, BitVec.toNat_udiv, hfour, hunit]
  omega

/-- Enabling an interrupt behind the bank writes into the bank that clears, or behind it. -/
theorem enable_escapes {id : BitVec 32} (h : ¬id < bankSize) :
    ∃ s, ¬OnlyOwn s { operation := .enable, interruptId := id } := by
  have hid : 1024 ≤ id.toNat := Nat.not_lt.mp h
  have haddr : (gicdIsenabler + id / 32 * 4).toNat = gicdIsenabler.toNat + id.toNat / 32 * 4 :=
    toNat_behind (by decide)
  have hset : gicdIsenabler.toNat = 0x1E001100 := rfl
  have hicen : gicdIcenabler.toNat = 0x1E001180 := rfl
  have hbehind : gicdIcenabler ≤ gicdIsenabler + id / 32 * 4 := by
    rw [BitVec.le_def]
    omega
  by_cases hclear : InClearBank (gicdIsenabler + id / 32 * 4)
  · refine ⟨fun _ => BitVec.allOnes 32, ?_⟩
    intro hown
    refine writeReg_ne ?_ (hown.unchanged h)
    have hwritten : ∀ value old, written (gicdIsenabler + id / 32 * 4) value old =
        old &&& ~~~value :=
      fun value old => (if_neg (not_set_of_clear hclear)).trans (if_pos hclear)
    rw [hwritten, BitVec.allOnes_and]
    intro heq
    have hzero := congrArg (fun x => ~~~x) heq
    simp only [BitVec.not_not, BitVec.not_allOnes] at hzero
    exact bit_ne_zero id hzero
  · refine ⟨fun _ => 0, ?_⟩
    intro hown
    refine writeReg_ne ?_ (hown.unchanged h)
    have hpend : gicdIspendr ≤ gicdIsenabler + id / 32 * 4 :=
      BitVec.not_lt.mp fun hlt => hclear ⟨hbehind, hlt⟩
    rw [written_plain hpend]
    exact bit_ne_zero id

theorem disable_escapes {id : BitVec 32} (h : ¬id < bankSize) :
    ∃ s, ¬OnlyOwn s { operation := .disable, interruptId := id } := by
  have hid : 1024 ≤ id.toNat := Nat.not_lt.mp h
  have haddr : (gicdIcenabler + id / 32 * 4).toNat = gicdIcenabler.toNat + id.toNat / 32 * 4 :=
    toNat_behind (by decide)
  have hicen : gicdIcenabler.toNat = 0x1E001180 := rfl
  have hispend : gicdIspendr.toNat = 0x1E001200 := rfl
  have hpend : gicdIspendr ≤ gicdIcenabler + id / 32 * 4 := by
    rw [BitVec.le_def]
    omega
  refine ⟨fun _ => 0, ?_⟩
  intro hown
  refine writeReg_ne ?_ (hown.unchanged h)
  rw [written_plain hpend]
  exact bit_ne_zero id

/-- A byte of ones changes some word, wherever the address is. -/
theorem setByte_escapes (bank id : BitVec 32) : ∃ s, setByte bank s id 0xFF ≠ s := by
  have hpos : (id % 4).toNat * 8 < 32 := by
    have hmod : (id % 4).toNat < 4 := by
      rw [BitVec.toNat_umod]
      exact Nat.mod_lt _ (by decide)
    omega
  have hmask : (0xFF : BitVec 32) <<< ((id % 4).toNat * 8) ≠ 0 := shifted_ne_zero rfl hpos
  have hbyte : ((0xFF : BitVec 8).setWidth 32 : BitVec 32) = 0xFF := rfl
  by_cases hclear : InClearBank (bank + id / 4 * 4)
  · refine ⟨fun _ => BitVec.allOnes 32, writeReg_ne ?_⟩
    have hvalue : (BitVec.allOnes 32 &&& ~~~((0xFF : BitVec 32) <<< ((id % 4).toNat * 8))) |||
        (0xFF : BitVec 32) <<< ((id % 4).toNat * 8) = BitVec.allOnes 32 := by
      rw [BitVec.allOnes_and, BitVec.not_or_self]
    rw [written, if_neg (not_set_of_clear hclear), if_pos hclear, readReg, hbyte, hvalue]
    decide
  · refine ⟨fun _ => 0#32, writeReg_ne ?_⟩
    have hvalue : (0#32 &&& ~~~((0xFF : BitVec 32) <<< ((id % 4).toNat * 8))) |||
        (0xFF : BitVec 32) <<< ((id % 4).toNat * 8) =
        (0xFF : BitVec 32) <<< ((id % 4).toNat * 8) := by
      rw [BitVec.zero_and, BitVec.zero_or]
    rw [written, if_neg hclear, readReg, hbyte, hvalue]
    split
    · rw [BitVec.zero_or]
      exact hmask
    · exact hmask

/-- **Behind the bank** every function can be called so that it changes what is not its own. -/
theorem exists_escape (kind : Kind) {id : BitVec 32} (h : ¬id < bankSize) :
    ∃ operation s, Operation.kind operation = kind ∧
      ¬OnlyOwn s { operation, interruptId := id } := by
  cases kind with
  | enable =>
    obtain ⟨s, hs⟩ := enable_escapes h
    exact ⟨.enable, s, rfl, hs⟩
  | disable =>
    obtain ⟨s, hs⟩ := disable_escapes h
    exact ⟨.disable, s, rfl, hs⟩
  | setPriority =>
    obtain ⟨s, hs⟩ := setByte_escapes gicdIpriorityr id
    exact ⟨.setPriority 0xFF, s, rfl, fun hown => hs (hown.unchanged h)⟩
  | setTarget =>
    obtain ⟨s, hs⟩ := setByte_escapes gicdItargetsr id
    exact ⟨.setTarget 0xFF, s, rfl, fun hown => hs (hown.unchanged h)⟩

/-- **Independence.** For a set of functions and identifiers: every run of calls from it is
independent, from every state, exactly when the banks have a field for each identifier. -/
theorem independent_iff (allowed : Set (Kind × BitVec 32)) :
    (∀ calls : List Call, (∀ c ∈ calls, (c.operation.kind, c.interruptId) ∈ allowed) →
      ∀ s, Independent s calls) ↔ ∀ use ∈ allowed, use.2 < bankSize := by
  constructor
  · rintro h ⟨kind, id⟩ huse
    by_contra hid
    obtain ⟨operation, s, rfl, hescape⟩ := exists_escape kind hid
    have hone : ∀ c ∈ [Call.mk operation id], (c.operation.kind, c.interruptId) ∈ allowed := by
      intro c hc
      rw [List.mem_singleton.mp hc]
      exact huse
    exact hescape (h [Call.mk operation id] hone s).own.1
  · intro h calls hcalls s
    exact independent_of_lt (fun c hc => h _ (hcalls c hc)) s

/-- Interrupt 1024 is enabled in the bank that clears: interrupt 0 is disabled. -/
theorem enable_1024_disables :
    ¬Independent (fun _ => 1) [{ operation := .enable, interruptId := 1024 }] := by
  intro h
  have hbit := h.own.1 (.enables 0) 0 fun howns => absurd howns.1 (by decide)
  exact absurd hbit (by decide)

end Runs

end ArmKernel.Irq
