import MiniC.Assembly
import MiniC.Console
import MiniC.Text.Utf8

/-!
# RV32 machines

What the instructions of an assembly file do. Registers hold words of 32 bits and memory holds a byte at
every address, the low byte of a word first. A word that is loaded or stored lies at a multiple of four;
anything else stops the machine. Places in the code are counted in instructions, so a pseudo instruction
is one step.

A call of the environment prints an integer or a text, reads an integer, or exits. The console keeps what
every call printed; what a reader sees is all of it in a row (`Console.shown`).

`Image.Reaches` is the run of a machine over several steps, and `Image.At` says which instructions stand
at a place.
-/

namespace MiniC

/-- All that was printed, in a row. -/
def Console.shown (c : Console) : String :=
  String.join c.printed.toList

namespace Rv32

/-- The contents of a register. -/
abbrev Word := BitVec 32

/-- What an operation on two registers gives. Overflow wraps, a shift looks at the low five bits of its
count, a quotient by zero is `-1`, and the remainder is then the dividend. -/
def BinaryOp.apply (op : BinaryOp) (a b : Word) : Word :=
  match op with
  | .add => a + b
  | .sub => a - b
  | .mul => a * b
  | .div => if b = 0 then -1 else a.sdiv b
  | .rem => if b = 0 then a else a.srem b
  | .and => a &&& b
  | .or => a ||| b
  | .xor => a ^^^ b
  | .sll => a <<< (b.toNat % 32)
  | .sra => a.sshiftRight (b.toNat % 32)
  | .sgt => if b.slt a then 1 else 0
  | .slt => if a.slt b then 1 else 0

/-- What an operation on one register gives. -/
def UnaryOp.apply (op : UnaryOp) (a : Word) : Word :=
  match op with
  | .neg => -a
  | .not => ~~~a
  | .seqz => if a = 0 then 1 else 0
  | .snez => if a = 0 then 0 else 1

-- The quotient of the least word by `-1` is the least word again.
example : BinaryOp.div.apply 0x80000000 (-1) = 0x80000000 := by decide

/-! ## Memory -/

/-- A byte at every address. -/
abbrev Memory := Nat → UInt8

namespace Memory

/-- The word at an address. -/
def word (m : Memory) (a : Nat) : Word :=
  BitVec.ofNat 32 ((m a).toNat + 256 * (m (a + 1)).toNat + 65536 * (m (a + 2)).toNat +
    16777216 * (m (a + 3)).toNat)

/-- Memory with a word put at an address. -/
def setWord (m : Memory) (a : Nat) (value : Word) : Memory :=
  fun x => if a ≤ x ∧ x < a + 4 then UInt8.ofNat (value.toNat >>> (8 * (x - a))) else m x

/-- The bytes from an address on, up to one that is zero, through at most `bound` addresses. -/
def bytes (m : Memory) : (bound a : Nat) → List UInt8
  | 0, _ => []
  | bound + 1, a => if m a = 0 then [] else m a :: m.bytes bound (a + 1)

/-- The text at an address. -/
def text (m : Memory) (a : Nat) : String :=
  String.ofList (Text.decodeLossy (m.bytes (4294967296 - a) a))

/-- A word that is put somewhere is found there. -/
theorem word_setWord_self (m : Memory) (a : Nat) (value : Word) : (m.setWord a value).word a = value := by
  have bound := value.isLt
  apply BitVec.eq_of_toNat_eq
  simp only [word, setWord, Nat.le_refl, Nat.le_add_right, Nat.add_lt_add_iff_left, Nat.lt_add_right_iff_pos,
    true_and, Nat.sub_self, Nat.add_sub_cancel_left, Nat.mul_zero,
    Nat.reduceMul, Nat.reduceLT, if_true, UInt8.toNat_ofNat', Nat.shiftRight_eq_div_pow, BitVec.toNat_ofNat]
  omega

/-- A word that is put somewhere leaves the bytes elsewhere as they are. -/
theorem setWord_of_outside (m : Memory) {a x : Nat} (value : Word) (h : x < a ∨ a + 4 ≤ x) :
    m.setWord a value x = m x := by
  unfold setWord
  rw [if_neg (by omega)]

/-- A word depends on its four bytes only. -/
theorem word_congr {m m' : Memory} {a : Nat} (h : ∀ x, a ≤ x → x < a + 4 → m' x = m x) :
    m'.word a = m.word a := by
  unfold word
  rw [h a (by omega) (by omega), h (a + 1) (by omega) (by omega), h (a + 2) (by omega) (by omega),
    h (a + 3) (by omega) (by omega)]

/-- A word that is stored changes no word apart from it. -/
theorem word_setWord_of_apart (m : Memory) {a b : Nat} (value : Word) (h : b + 4 ≤ a ∨ a + 4 ≤ b) :
    (m.setWord a value).word b = m.word b := by
  apply word_congr
  intro x lower upper
  exact m.setWord_of_outside value (by omega)

end Memory

/-! ## States and steps -/

/-- All that an instruction can change. -/
structure State where
  /-- The place of the next instruction. -/
  pc : Nat
  regs : Reg → Word
  memory : Memory
  console : Console

namespace State

/-- A register gets a word, and the next instruction is the one after. -/
def write (s : State) (r : Reg) (value : Word) : State :=
  { s with pc := s.pc + 1, regs := fun other => if other = r then value else s.regs other }

theorem regs_write_self (s : State) (r : Reg) (value : Word) : (s.write r value).regs r = value :=
  if_pos rfl

theorem regs_write_of_ne (s : State) {r other : Reg} (h : other ≠ r) (value : Word) :
    (s.write r value).regs other = s.regs other :=
  if_neg h

/-- A word is stored, and the next instruction is the one after. -/
def store (s : State) (a : Nat) (value : Word) : State :=
  { s with pc := s.pc + 1, memory := s.memory.setWord a value }

/-- The console changes, and the next instruction is the one after. -/
def talk (s : State) (console : Console) : State :=
  { s with pc := s.pc + 1, console }

/-- The address that an operand names. -/
def effective (s : State) (offset : Int) (base : Reg) : Nat :=
  (s.regs base + BitVec.ofInt 32 offset).toNat

end State

/-- Why a machine does not go on. -/
inductive Stop where
  /-- The program asked for it. -/
  | exit
  | trap
  deriving DecidableEq

/-- The service with the given number. -/
def Service.ofWord? (w : Word) : Option Service :=
  [Service.printInt, .printString, .readInt, .exit].find? fun service => service.number.toBitVec = w

/-- A call of the environment: `a7` names the service, and `a0` holds what it takes or gives. -/
def State.call (s : State) : Except Stop State :=
  match Service.ofWord? (s.regs .a7) with
  | some .printInt => .ok (s.talk (s.console.printInt (.ofBitVec (s.regs .a0))))
  | some .printString => .ok (s.talk (s.console.printString (s.memory.text (s.regs .a0).toNat)))
  | some .readInt =>
    match s.console.readInt with
    | .ok value console => .ok ({ s with console }.write .a0 value.toBitVec)
    | .error _ _ => .error .trap
  | some .exit => .error .exit
  | none => .error .trap

/-- A file that is ready to run: its instructions, the places that its labels mark among them, and the
addresses of its labels. -/
structure Image where
  code : List Instr
  target? : String → Option Nat
  address : String → Nat

namespace Image

/-- Goes on at the place that a label marks. -/
def jump (f : Image) (label : String) (s : State) : Except Stop State :=
  match f.target? label with
  | some place => .ok { s with pc := place }
  | none => .error .trap

/-- What an instruction does. -/
def exec (f : Image) (i : Instr) (s : State) : Except Stop State :=
  match i with
  | .lw rd offset base =>
    let a := s.effective offset base
    if a % 4 = 0 then .ok (s.write rd (s.memory.word a)) else .error .trap
  | .sw rs offset base =>
    let a := s.effective offset base
    if a % 4 = 0 then .ok (s.store a (s.regs rs)) else .error .trap
  | .addi rd rs value => .ok (s.write rd (s.regs rs + BitVec.ofInt 32 value))
  | .xori rd rs value => .ok (s.write rd (s.regs rs ^^^ BitVec.ofInt 32 value))
  | .li rd value => .ok (s.write rd value.toBitVec)
  | .la rd label => .ok (s.write rd (BitVec.ofNat 32 (f.address label)))
  | .binary op rd rs₁ rs₂ => .ok (s.write rd (op.apply (s.regs rs₁) (s.regs rs₂)))
  | .unary op rd rs => .ok (s.write rd (op.apply (s.regs rs)))
  | .j label => f.jump label s
  | .beqz rs label => if s.regs rs = 0 then f.jump label s else .ok { s with pc := s.pc + 1 }
  | .bnez rs label => if s.regs rs = 0 then .ok { s with pc := s.pc + 1 } else f.jump label s
  | .ecall => s.call

/-- Executes the next instruction. -/
def step (f : Image) (s : State) : Except Stop State :=
  match f.code[s.pc]? with
  | some i => f.exec i s
  | none => .error .trap

/-- Some steps lead from a state to another. -/
inductive Reaches (f : Image) : State → State → Prop
  | refl (s : State) : Reaches f s s
  | head {s s' s'' : State} : f.step s = .ok s' → Reaches f s' s'' → Reaches f s s''

/-- Instructions stand at a place in the code. -/
def At (f : Image) (pc : Nat) (code : List Instr) : Prop :=
  code <+: f.code.drop pc

variable {f : Image} {s s' : State} {i : Instr} {code code' : List Instr} {pc : Nat}

/-- The second part of some code stands as many places on as the first has instructions. -/
theorem At.right (h : f.At pc (code ++ code')) : f.At (pc + code.length) code' := by
  obtain ⟨rest, split⟩ := h
  refine ⟨rest, ?_⟩
  rw [← List.drop_drop, ← split]
  simp

theorem At.tail (h : f.At pc (i :: code)) : f.At (pc + 1) code :=
  At.right (show f.At pc ([i] ++ code) from h)

/-- The instruction at the place of a state is the one that is executed. -/
theorem At.step (h : f.At s.pc (i :: code)) : f.step s = f.exec i s := by
  obtain ⟨rest, split⟩ := h
  have found : f.code[s.pc]? = some i := by
    have first := congrArg List.head? split
    rw [List.head?_drop] at first
    exact first.symm
  rw [Image.step, found]

/-- An instruction that goes on is one step of a run. -/
theorem Reaches.exec {s'' : State} (at_ : f.At s.pc (i :: code)) (h : f.exec i s = .ok s')
    (rest : f.Reaches s' s'') : f.Reaches s s'' :=
  .head (at_.step.trans h) rest

end Image

/-! ## Files -/

/-- The instructions in a list of lines. -/
def instrs : List Line → List Instr
  | [] => []
  | .label _ :: rest => instrs rest
  | .instr i _ :: rest => i :: instrs rest

/-- The labels in a list of lines. -/
def marked : List Line → List String
  | [] => []
  | .label name :: rest => name :: marked rest
  | .instr _ _ :: rest => marked rest

/-- The place that a label marks: the number of instructions before it. -/
def place? (name : String) : List Line → Option Nat
  | [] => none
  | .label other :: rest => if other = name then some 0 else place? name rest
  | .instr _ _ :: rest => (place? name rest).map (· + 1)

/-- A file with an address for every label. -/
def File.image (f : File) (address : String → Nat) : Image :=
  { code := instrs f.code, target? := (place? · f.code), address }

@[simp]
theorem instrs_append (ls ls' : List Line) : instrs (ls ++ ls') = instrs ls ++ instrs ls' := by
  induction ls with
  | nil => rfl
  | cons l rest ih => cases l <;> simp [instrs, ih]

@[simp]
theorem marked_append (ls ls' : List Line) : marked (ls ++ ls') = marked ls ++ marked ls' := by
  induction ls with
  | nil => rfl
  | cons l rest ih => cases l <;> simp [marked, ih]

/-- A label that does not come before marks the place where it stands. -/
theorem place?_append {name : String} {before : List Line} (h : name ∉ marked before) (rest : List Line) :
    place? name (before ++ .label name :: rest) = some (instrs before).length := by
  induction before with
  | nil => simp [place?, instrs]
  | cons l before ih =>
    cases l with
    | label other =>
      obtain ⟨ne, h⟩ := List.ne_and_not_mem_of_not_mem_cons h
      simp [place?, instrs, Ne.symm ne, ih h]
    | instr i comment => simp [place?, instrs, ih h]

end Rv32

end MiniC
