import Mathlib.Logic.Basic
import Mathlib.Logic.ExistsUnique
import MiniC.Proofs.Annotation
import MiniC.Proofs.Labels

/-!
# The names of lowered programs

`Source.lower_wellFormed`: in the program of a source every name is used once. The marks have different
names, the data has others, every jump goes to one mark and every name that is pushed is that of one block
of data; so the program loads. And no block was written over another: every name that the source declares
has a block of its own, and so has every string that it holds.

The last part follows the names from the source to the catalogues. Checking gives every declared name a
symbol of that name (`Checker.checkBlock_named`), lowering draws a number for every symbol and every
string (`Block.drawn_storage`, `Block.drawn_literals`), and entries whose keys have different numbers do not
meet in a catalogue (`Catalogue.perm_foldl_insert`).
-/

namespace MiniC

/-! ## What a tree declares and holds -/

mutual

/-- The names that a statement declares, in the order in which they get their storage. -/
def Stmt.declaredNames : Stmt → List String
  | .block body | .ifThen _ body | .whileLoop _ body | .doWhile body _ | .function _ _ _ body _ =>
    body.declaredNames
  | .ifElse _ body otherwise => body.declaredNames ++ otherwise.declaredNames
  | .forLoop init _ step body => init.declaredNames ++ (body.declaredNames ++ step.declaredNames)
  | .declare _ declarators => declarators.map Declarator.name
  | .assign .. | .eval _ | .print _ | .input _ | .breakLoop | .continueLoop | .returnValue _ => []

/-- The names that a block declares. -/
def Block.declaredNames : Block → List String
  | ⟨statements, _⟩ => Stmt.allDeclaredNames statements

/-- The names that statements declare. -/
def Stmt.allDeclaredNames : List Stmt → List String
  | [] => []
  | statement :: rest => statement.declaredNames ++ Stmt.allDeclaredNames rest

end

mutual

/-- The strings that an expression holds. -/
def Expr.strings : Expr → List String
  | .literal (.string value) _ => [value]
  | .literal .. | .name .. => []
  | .unary _ operand _ => operand.strings
  | .binary _ left right _ => left.strings ++ right.strings
  | .index base position _ => base.strings ++ position.strings
  | .call callee arguments _ => callee.strings ++ Expr.allStrings arguments

/-- The strings that expressions hold. -/
def Expr.allStrings : List Expr → List String
  | [] => []
  | x :: xs => x.strings ++ Expr.allStrings xs

end

mutual

/-- The strings that a statement holds, as often as they are lowered: the condition of a `for` loop has
its code twice. -/
def Stmt.strings : Stmt → List String
  | .block body | .function _ _ _ body _ => body.strings
  | .ifThen condition body | .whileLoop condition body => condition.strings ++ body.strings
  | .ifElse condition body otherwise => condition.strings ++ (body.strings ++ otherwise.strings)
  | .doWhile body condition => body.strings ++ condition.strings
  | .forLoop init condition step body =>
    init.strings ++ (condition.strings ++ (condition.strings ++ (body.strings ++ step.strings)))
  | .declare _ declarators => declarators.flatMap fun d => (d.init.map Expr.strings).getD []
  | .assign target value => target.strings ++ value.strings
  | .eval value | .print value => value.strings
  | .input target => target.strings
  | .breakLoop | .continueLoop => []
  | .returnValue value => (value.map Expr.strings).getD []

/-- The strings that a block holds. -/
def Block.strings : Block → List String
  | ⟨statements, _⟩ => Stmt.allStrings statements

/-- The strings that statements hold. -/
def Stmt.allStrings : List Stmt → List String
  | [] => []
  | statement :: rest => statement.strings ++ Stmt.allStrings rest

end

/-! ## Annotations hold no strings -/

mutual

/-- Annotations hold no strings. -/
theorem Expr.strings_erase : (x : Expr) → x.erase.strings = x.strings
  | .literal (.string _) _ | .literal (.int _) _ | .literal (.float _) _ | .literal (.char _) _
  | .literal (.bool _) _ | .name .. => rfl
  | .unary _ operand _ => operand.strings_erase
  | .binary _ left right _ => congrArg₂ _ left.strings_erase right.strings_erase
  | .index base position _ => congrArg₂ _ base.strings_erase position.strings_erase
  | .call callee arguments _ => congrArg₂ _ callee.strings_erase (Expr.allStrings_eraseAll arguments)

theorem Expr.allStrings_eraseAll :
    (xs : List Expr) → Expr.allStrings (Expr.eraseAll xs) = Expr.allStrings xs
  | [] => rfl
  | x :: xs => congrArg₂ _ x.strings_erase (Expr.allStrings_eraseAll xs)

end

theorem Expr.strings_map_erase (x : Option Expr) :
    ((x.map Expr.erase).map Expr.strings).getD [] = (x.map Expr.strings).getD [] := by
  cases x with
  | none => rfl
  | some x => exact x.strings_erase

mutual

/-- A statement holds the same strings without its annotations. -/
theorem Stmt.strings_erase : (s : Stmt) → s.erase.strings = s.strings
  | .block body => body.strings_erase
  | .function _ _ _ body _ => body.strings_erase
  | .ifThen condition body => congrArg₂ _ condition.strings_erase body.strings_erase
  | .whileLoop condition body => congrArg₂ _ condition.strings_erase body.strings_erase
  | .doWhile body condition => congrArg₂ _ body.strings_erase condition.strings_erase
  | .ifElse condition body otherwise =>
    congrArg₂ _ condition.strings_erase (congrArg₂ _ body.strings_erase otherwise.strings_erase)
  | .forLoop init condition step body =>
    congrArg₂ _ init.strings_erase (congrArg₂ _ condition.strings_erase
      (congrArg₂ _ condition.strings_erase (congrArg₂ _ body.strings_erase step.strings_erase)))
  | .declare _ declarators => by
    simp only [Stmt.erase, Stmt.strings, List.flatMap_map, Declarator.erase, Expr.strings_map_erase]
  | .assign target value => congrArg₂ _ target.strings_erase value.strings_erase
  | .eval value => value.strings_erase
  | .print value => value.strings_erase
  | .input target => target.strings_erase
  | .breakLoop | .continueLoop => rfl
  | .returnValue value => Expr.strings_map_erase value

theorem Block.strings_erase : (b : Block) → b.erase.strings = b.strings
  | ⟨statements, _⟩ => Stmt.allStrings_eraseAll statements

theorem Stmt.allStrings_eraseAll :
    (statements : List Stmt) →
      Stmt.allStrings (Stmt.eraseAll statements) = Stmt.allStrings statements
  | [] => rfl
  | statement :: rest => congrArg₂ _ statement.strings_erase (Stmt.allStrings_eraseAll rest)

end

/-! ## The numbers of strings -/

section Literals

variable {labels : SymbolId → Option String}

/-- The strings of an expression get numbers of their own. -/
theorem Expr.drawn_literals (x : Expr) (number : Nat) :
    Drawn number (number + x.numbers) ((x.literals number).map Prod.fst) := by
  induction x using Expr.shallowInduction generalizing number with
  | literal value ty =>
    cases value with
    | string value => exact .single number
    | int | float | char | bool => exact .nil _ _
  | name => exact .nil _ _
  | unary op operand ty ih => exact ih number
  | binary op left right ty ihl ihr =>
    rw [literals, numbers, List.map_append, ← Nat.add_assoc]
    exact (ihl number).append (ihr _) (by omega) (by omega)
  | index base position ty ihb ihp =>
    rw [literals, numbers, List.map_append, ← Nat.add_assoc]
    exact (ihb number).append (ihp _) (by omega) (by omega)
  | call => exact .nil _ _

/-- Each declared name draws a number before the strings of its initial value draw theirs. -/
theorem Declarator.drawn_allLiterals (ds : List Declarator) (number : Nat) :
    Drawn number (number + Declarator.allNumbers ds)
      ((Declarator.allLiterals number ds).map Prod.fst) := by
  induction ds generalizing number with
  | nil => exact .nil _ _
  | cons d ds ih =>
    have first : Drawn (number + 1) (number + 1 + (d.init.map Expr.numbers).getD 0)
        (((d.init.map (Expr.literals (number + 1))).getD []).map Prod.fst) := by
      cases d.init with
      | none => exact .nil _ _
      | some init => exact init.drawn_literals (number + 1)
    have both := first.append (ih (number + 1 + (d.init.map Expr.numbers).getD 0)) (by omega) (by omega)
    rw [allLiterals, allNumbers, List.map_append]
    exact both.widen (by omega) (by omega)

mutual

/-- The strings of a statement get numbers of their own. -/
theorem Stmt.drawn_literals (number : Nat) :
    (s : Stmt) → Drawn number (number + s.numbers) ((s.literals number).map Prod.fst)
  | .block body => Block.drawn_literals number body
  | .ifThen condition body | .whileLoop condition body => by
    have both := (condition.drawn_literals (number + 1)).append
      (Block.drawn_literals (number + 1 + condition.numbers) body) (by omega) (by omega)
    simp only [Stmt.literals, Stmt.numbers, List.map_append]
    exact both.widen (by omega) (by omega)
  | .ifElse condition body otherwise => by
    have first := Block.drawn_literals (number + 1 + condition.numbers) body
    have second := Stmt.drawn_literals (number + 1 + condition.numbers + body.numbers) otherwise
    have all := (condition.drawn_literals (number + 1)).append
      (first.append second (by omega) (by omega)) (by omega) (by omega)
    simp only [Stmt.literals, Stmt.numbers, List.map_append]
    exact all.widen (by omega) (by omega)
  | .doWhile body condition => by
    have both := (Block.drawn_literals (number + 1) body).append
      (condition.drawn_literals (number + 1 + body.numbers)) (by omega) (by omega)
    simp only [Stmt.literals, Stmt.numbers, List.map_append]
    exact both.widen (by omega) (by omega)
  | .forLoop init condition step body => by
    have start := Stmt.drawn_literals (number + 1) init
    have first := condition.drawn_literals (number + 1 + init.numbers)
    have later := condition.drawn_literals (number + 1 + init.numbers + condition.numbers)
    have turn :=
      Block.drawn_literals (number + 1 + init.numbers + condition.numbers + condition.numbers) body
    have last := Stmt.drawn_literals
      (number + 1 + init.numbers + condition.numbers + condition.numbers + body.numbers) step
    have all := start.append (first.append (later.append (turn.append last (by omega) (by omega))
      (by omega) (by omega)) (by omega) (by omega)) (by omega) (by omega)
    simp only [Stmt.literals, Stmt.numbers, List.map_append]
    exact all.widen (by omega) (by omega)
  | .declare _ ds => Declarator.drawn_allLiterals ds number
  | .assign target value => by
    have both := (target.drawn_literals number).append (value.drawn_literals (number + target.numbers))
      (by omega) (by omega)
    simp only [Stmt.literals, Stmt.numbers, List.map_append]
    exact both.widen (by omega) (by omega)
  | .eval value => value.drawn_literals number
  | .print value => value.drawn_literals number
  | .input target => target.drawn_literals number
  | .function .. | .breakLoop | .continueLoop | .returnValue _ => .nil _ _

theorem Block.drawn_literals (number : Nat) :
    (b : Block) → Drawn number (number + b.numbers) ((b.literals number).map Prod.fst)
  | ⟨statements, _⟩ => Stmt.drawn_allLiterals number statements

theorem Stmt.drawn_allLiterals (number : Nat) :
    (statements : List Stmt) →
      Drawn number (number + Stmt.allNumbers statements)
        ((Stmt.allLiterals number statements).map Prod.fst)
  | [] => .nil _ _
  | statement :: rest => by
    have both := (Stmt.drawn_literals number statement).append
      (Stmt.drawn_allLiterals (number + statement.numbers) rest) (by omega) (by omega)
    rw [Stmt.allLiterals, Stmt.allNumbers, List.map_append]
    exact both.widen (by omega) (by omega)

end

/-- All strings of an expression that has code are lowered. -/
theorem Expr.map_snd_literals {x : Expr} (has : x.HasCode labels) (number : Nat) :
    (x.literals number).map Prod.snd = x.strings := by
  induction x using Expr.shallowInduction generalizing number with
  | literal value ty => cases value <;> rfl
  | name => rfl
  | unary op operand ty ih => exact ih has number
  | binary op left right ty ihl ihr =>
    rw [literals, strings, List.map_append, ihl has.1, ihr has.2]
  | index base position ty ihb ihp =>
    rw [literals, strings, List.map_append, ihb has.2.1, ihp has.2.2]
  | call => exact has.elim

/-- The strings of initial values are lowered in the order of the names. -/
theorem Declarator.map_snd_allLiterals {ds : List Declarator} (has : ∀ d ∈ ds, d.HasCode labels)
    (number : Nat) :
    (Declarator.allLiterals number ds).map Prod.snd =
      ds.flatMap fun d => (d.init.map Expr.strings).getD [] := by
  induction ds generalizing number with
  | nil => rfl
  | cons d ds ih =>
    obtain ⟨first, rest⟩ := List.forall_mem_cons.1 has
    rw [allLiterals, List.map_append, ih rest, List.flatMap_cons]
    congr 1
    cases hinit : d.init with
    | none => rfl
    | some init => exact Expr.map_snd_literals (first.2 init hinit) (number + 1)

mutual

/-- All strings of a statement that has code are lowered. -/
theorem Stmt.map_snd_literals (number : Nat) :
    {s : Stmt} → s.HasCode labels → (s.literals number).map Prod.snd = s.strings
  | .block _, has => Block.map_snd_literals number has
  | .ifThen _ _, has | .whileLoop _ _, has => by
    rw [Stmt.literals, Stmt.strings, List.map_append, Expr.map_snd_literals has.1,
      Block.map_snd_literals _ has.2]
  | .ifElse _ _ _, has => by
    rw [Stmt.literals, Stmt.strings, List.map_append, List.map_append, Expr.map_snd_literals has.1,
      Block.map_snd_literals _ has.2.1, Stmt.map_snd_literals _ has.2.2]
  | .doWhile _ _, has => by
    rw [Stmt.literals, Stmt.strings, List.map_append, Expr.map_snd_literals has.1,
      Block.map_snd_literals _ has.2]
  | .forLoop _ _ _ _, ⟨has₁, has₂, has₃, has₄⟩ => by
    simp only [Stmt.literals, Stmt.strings, List.map_append, Expr.map_snd_literals has₂,
      Stmt.map_snd_literals _ has₁, Block.map_snd_literals _ has₃, Stmt.map_snd_literals _ has₄]
  | .declare _ _, has => Declarator.map_snd_allLiterals has number
  | .assign _ _, has => by
    rw [Stmt.literals, Stmt.strings, List.map_append, Expr.map_snd_literals has.1,
      Expr.map_snd_literals has.2]
  | .eval _, has => Expr.map_snd_literals has number
  | .print _, has => Expr.map_snd_literals has.1 number
  | .input _, has => Expr.map_snd_literals has.1 number

theorem Block.map_snd_literals (number : Nat) :
    {b : Block} → b.HasCode labels → (b.literals number).map Prod.snd = b.strings
  | ⟨_, _⟩, has => Stmt.map_snd_allLiterals number has

theorem Stmt.map_snd_allLiterals (number : Nat) :
    {statements : List Stmt} → Stmt.AllHaveCode labels statements →
      (Stmt.allLiterals number statements).map Prod.snd = Stmt.allStrings statements
  | [], _ => rfl
  | _ :: _, has => by
    rw [Stmt.allLiterals, Stmt.allStrings, List.map_append, Stmt.map_snd_literals _ has.1,
      Stmt.map_snd_allLiterals _ has.2]

end

end Literals

/-! ## The names of declared symbols -/

/-- The name of a symbol. -/
def SymbolTable.nameOf? (t : SymbolTable) (id : SymbolId) : Option String :=
  (t.bare? id).map Symbol.name

/-- A symbol keeps its name. -/
theorem SymbolTable.Grows.nameOf? {t t' : SymbolTable} (h : t.Grows t') {id : SymbolId} {name : String}
    (known : t.nameOf? id = some name) : t'.nameOf? id = some name := by
  obtain ⟨s, found, rfl⟩ := Option.map_eq_some_iff.1 known
  exact Option.map_eq_some_iff.2 ⟨s, h id s found, rfl⟩

section Declared

variable {labels : SymbolId → Option String} {t : SymbolTable}

/-- Every declared name gets a symbol of that name, which it keeps while the table grows. -/
theorem Declarator.AllPass.named {scope : ScopeId} {ty : Ty} (positive : positiveLengths ty.qualifiers)
    {c c' : Checker} {ds ds' : List Declarator} (h : Declarator.AllPass scope ty c ds ds' c')
    (sound : c.table.Sound) (later : c'.table.Grows t) :
    (ds'.filterMap Declarator.symbol).map t.nameOf? = (ds.map Declarator.name).map some := by
  induction h with
  | nil => rfl
  | @cons c c₁ c₂ c₃ d ds ds' init initialized id hinit hdefine hrest ih =>
    obtain ⟨acceptedInit, -⟩ := hinit.accepted sound
    have acceptedName := Checker.accepted_define_variable hdefine acceptedInit.sound rfl rfl positive
    obtain ⟨acceptedRest, -⟩ := hrest.accepted positive acceptedName.sound
    have named : c₂.table.nameOf? id = some d.name := by
      obtain ⟨rfl, rfl⟩ := Checker.define_eq_ok hdefine
      simp [SymbolTable.nameOf?, SymbolTable.bare?_insert, Symbol.bare, Symbol.forVariable]
    have first : t.nameOf? id = some d.name := (acceptedRest.grows.trans later).nameOf? named
    simp only [List.filterMap_cons, List.map_cons, first, ih acceptedName.sound later]

mutual

/-- The symbols that an accepted statement declares have the names that are declared in it. Functions have
no code, so nothing is said of them. -/
theorem Stmt.Passes.named {scope : ScopeId} {c c' : Checker} {s s' : Stmt} :
    s.Passes scope c s' c' → s.Shaped → c.table.Sound → s'.HasCode labels → c'.table.Grows t →
      s'.declared.map t.nameOf? = s.declaredNames.map some
  | .block hbody, shaped, sound, has, later => hbody.named shaped sound has later
  | .ifThen hcondition hbody, shaped, sound, has, later
  | .whileLoop hcondition hbody, shaped, sound, has, later => by
    have acceptedC := (hcondition.accepted sound).1
    exact hbody.named shaped acceptedC.sound has.2 later
  | .ifElse hcondition hbody hotherwise, shaped, sound, has, later => by
    have acceptedC := (hcondition.accepted sound).1
    have acceptedB := (hbody.accepted shaped.1 acceptedC.sound).1
    have acceptedO := (hotherwise.accepted shaped.2 acceptedB.sound).1
    rw [Stmt.declared, Stmt.declaredNames, List.map_append, List.map_append,
      hbody.named shaped.1 acceptedC.sound has.2.1 (acceptedO.grows.trans later),
      hotherwise.named shaped.2 acceptedB.sound has.2.2 later]
  | .doWhile hbody hcondition, shaped, sound, has, later => by
    have acceptedB := (hbody.accepted shaped sound).1
    have acceptedC := (hcondition.accepted acceptedB.sound).1
    exact hbody.named shaped sound has.2 (acceptedC.grows.trans later)
  | .forLoop hinit hcondition hstep hbody, shaped, sound, has, later => by
    obtain ⟨⟨_, shapedI⟩, isAssign, shapedB⟩ := shaped
    obtain ⟨hasI, -, hasB, hasS⟩ := has
    have acceptedI := (hinit.accepted shapedI sound).1
    have acceptedC := (hcondition.accepted acceptedI.sound).1
    have acceptedS := (hstep.accepted isAssign.shaped acceptedC.sound).1
    have acceptedB := (hbody.accepted shapedB acceptedS.sound).1
    have afterS := acceptedB.grows.trans later
    have afterI := acceptedC.grows.trans (acceptedS.grows.trans afterS)
    simp only [Stmt.declared, Stmt.declaredNames, List.map_append, hinit.named shapedI sound hasI afterI,
      hstep.named isAssign.shaped acceptedC.sound hasS afterS, hbody.named shapedB acceptedS.sound hasB later]
  | .function _ _ _ _, _, _, has, _ => has.elim
  | .declare resolved _ hds, positive, sound, _, later =>
    hds.named (Checker.resolve_positive resolved sound positive) sound later
  | .assign _ _ _, _, _, _, _ | .eval _, _, _, _, _ | .print _, _, _, _, _ | .input _ _ _ _, _, _, _, _ => rfl

theorem Block.Passes.named {parent : ScopeId} {c c' : Checker} {b b' : Block} :
    b.Passes parent c b' c' → b.Shaped → c.table.Sound → b'.HasCode labels → c'.table.Grows t →
      b'.declared.map t.nameOf? = b.declaredNames.map some
  | .intro (.intro hstatements), shaped, sound, has, later =>
    hstatements.named shaped (Checker.accepted_newScope sound parent).sound has later

theorem Stmt.AllPass.named {scope : ScopeId} {c c' : Checker} {statements statements' : List Stmt} :
    Stmt.AllPass scope c statements statements' c' → Stmt.AllShaped statements → c.table.Sound →
      Stmt.AllHaveCode labels statements' → c'.table.Grows t →
      (Stmt.allDeclared statements').map t.nameOf? = (Stmt.allDeclaredNames statements).map some
  | .nil, _, _, _, _ => rfl
  | .cons hstatement hrest, shaped, sound, has, later => by
    have acceptedS := (hstatement.accepted shaped.1 sound).1
    have acceptedR := (hrest.accepted shaped.2 acceptedS.sound).1
    rw [Stmt.allDeclared, Stmt.allDeclaredNames, List.map_append, List.map_append,
      hstatement.named shaped.1 sound has.1 (acceptedR.grows.trans later),
      hrest.named shaped.2 acceptedS.sound has.2 later]

end

/-- The symbols that an accepted block declares have the names that are declared in it. -/
theorem Checker.checkBlock_named {parent : ScopeId} {c c' : Checker} {u : Unit} {b b' : Block}
    (h : checkBlock parent b c = .accept b' c' u) (shaped : b.Shaped) (sound : c.table.Sound)
    (has : b'.HasCode labels) (later : c'.table.Grows t) :
    b'.declared.map t.nameOf? = b.declaredNames.map some :=
  (checkBlock_eq_accept.1 h).named shaped sound has later

end Declared

/-! ## Well-formed programs -/

/-- Names with different numbers are different. -/
theorem nodup_numbered {ι : Type} {stem : ι → String} {number : ι → Nat} {items : List ι}
    (nodup : (items.map number).Nodup) : (items.map fun i => numbered (stem i) (number i)).Nodup :=
  (List.pairwise_map.1 nodup).map _ fun _ _ different same => different (numbered_inj.1 same).2

/-- Every name in a program is that of one thing only: a mark, a literal or a variable. -/
structure Program.WellFormed (p : Program) : Prop where
  /-- A mark has its name in full. -/
  plain : ∀ i ∈ p.code, i.op = .label → i = .mark (Machine.markName i)
  distinct : (marks p.code).Nodup
  literals_apart : ∀ label ∈ p.readOnly.keys, label ∉ p.static.keys ∧ label ∉ marks p.code
  variables_apart : ∀ label ∈ p.static.keys, label ∉ p.readOnly.keys ∧ label ∉ marks p.code
  /-- A jump or a branch goes to one place. -/
  jumps : ∀ i ∈ p.code, i.op ∈ [.jump, .branchEqualZero, .branchNotZero] →
    ∃ name, i.operand = .label name ∧ ∃! place : Nat, p.code[place]? = some (Instruction.mark name)
  /-- A name that is pushed is in one catalogue and not in the other. -/
  pushes : ∀ i ∈ p.code, i.op = .push → ∀ name, i.operand = .label name →
    (name ∈ p.readOnly.keys ↔ name ∉ p.static.keys)

/-- The label of the storage of a declared name. -/
def variableLabel (name : String) (number : Nat) : String :=
  numbered ("v_" ++ name) number

/-- The data of a program is that of a tree, with nothing lost and nothing added: one block of storage for
every name that the tree declares, and one block for every string that it holds. -/
structure Program.Stores (p : Program) (tree : Block) : Prop where
  names : ∃ numbers : List Nat, numbers.length = tree.declaredNames.length ∧
    p.static.keys.Perm (List.zipWith variableLabel tree.declaredNames numbers)
  strings : ∃ numbers : List Nat, numbers.length = tree.strings.length ∧
    p.readOnly.entries.Perm (List.zipWith
      (fun value number => (literalLabel number, literalBlock value)) tree.strings numbers)

/-- A name that is marked once stands at one place. -/
theorem existsUnique_mark {code : List Instruction} (distinct : (marks code).Nodup)
    (plain : ∀ i ∈ code, i.op = .label → i = .mark (Machine.markName i)) {name : String}
    (mem : name ∈ marks code) : ∃! place : Nat, code[place]? = some (Instruction.mark name) := by
  obtain ⟨i, marked, rfl⟩ := List.mem_map.1 mem
  obtain ⟨held, mark⟩ := List.mem_filter.1 marked
  obtain ⟨place, found⟩ := List.mem_iff_getElem?.1 held
  have same := plain i held (of_decide_eq_true mark)
  refine ⟨place, show code[place]? = some _ from same ▸ found, fun other found' => ?_⟩
  replace found' : code[other]? = some i := found'.trans (congrArg some same.symm)
  -- Two places of one mark would give its name twice.
  have apart := List.pairwise_iff_getElem.1 (List.pairwise_filter.1 (List.pairwise_map.1 distinct))
  obtain ⟨lt, here⟩ := List.getElem?_eq_some_iff.1 found
  obtain ⟨lt', there⟩ := List.getElem?_eq_some_iff.1 found'
  rcases Nat.lt_trichotomy other place with before | rfl | after
  · have differ := apart other place lt' lt before (there.symm ▸ mark) (here.symm ▸ mark)
    exact absurd rfl (there ▸ here ▸ differ)
  · rfl
  · have differ := apart place other lt lt' after (here.symm ▸ mark) (there.symm ▸ mark)
    exact absurd rfl (there ▸ here ▸ differ)

namespace CheckedSource.Lowers

variable {checked : CheckedSource} (h : checked.Lowers)

include h

/-- The program of a checked source is well formed. -/
theorem wellFormed : checked.program.WellFormed := by
  obtain ⟨-, distinct, -, -⟩ := h.wellLabelled
  obtain ⟨marksDistinct, dataDistinct, marksApart⟩ := List.nodup_append.1 distinct
  have resolved := Block.allResolved h.hasCode h.supplied fun _ mem => mem
  rw [Program.dataLabels_eq] at dataDistinct marksApart
  have dataApart := (List.nodup_append.1 dataDistinct).2.2
  have plain : ∀ i ∈ checked.program.code, i.op = .label → i = .mark (Machine.markName i) := by
    rintro ⟨op, operand⟩ mem rfl
    have operand_eq := resolved _ mem
    exact congrArg (Instruction.mk .label) operand_eq
  refine ⟨plain, marksDistinct, fun label mem => ⟨fun mem' => ?_, fun mem' => ?_⟩,
    fun label mem => ⟨fun mem' => ?_, fun mem' => ?_⟩, ?_, ?_⟩
  · exact dataApart label mem label mem' rfl
  · exact marksApart label mem' label (List.mem_append_left _ mem) rfl
  · exact dataApart label mem' label mem rfl
  · exact marksApart label mem' label (List.mem_append_right _ mem) rfl
  · rintro ⟨op, operand⟩ mem jump
    have target : ∃ name ∈ marks checked.program.code, operand = .label name := by
      have operand_eq := resolved _ mem
      simp only [List.mem_cons, List.not_mem_nil, or_false] at jump
      rcases jump with rfl | rfl | rfl
      all_goals exact operand_eq
    obtain ⟨name, marked, rfl⟩ := target
    exact ⟨name, rfl, existsUnique_mark marksDistinct plain marked⟩
  · rintro ⟨op, operand⟩ mem rfl name rfl
    have held : name ∈ checked.program.dataLabels := resolved _ mem name rfl
    rw [Program.dataLabels_eq] at held
    rcases List.mem_append.1 held with literal | stored
    · exact ⟨fun _ mem' => dataApart name literal name mem' rfl, fun _ => literal⟩
    · exact ⟨fun mem' => absurd rfl (dataApart name mem' name stored),
        fun absent => absurd stored absent⟩

omit h in
/-- No literal was written over another. -/
theorem perm_readOnly :
    checked.program.readOnly.entries.Perm
      ((checked.tree.literals 0).map fun l => (literalLabel l.1, literalBlock l.2)) := by
  have distinct : (((checked.tree.literals 0).map fun l =>
      (literalLabel l.1, literalBlock l.2)).map Prod.fst).Nodup := by
    rw [List.map_map]
    exact nodup_numbered (checked.tree.drawn_literals 0).nodup
  have entered := Catalogue.perm_foldl_insert (c := .empty) distinct fun _ _ => List.not_mem_nil
  rw [List.foldl_map, Catalogue.empty, List.append_nil] at entered
  exact entered

omit h in
/-- What lowering enters for a symbol that it gives storage to. -/
theorem addStorage_eq_foldl {describe : SymbolId → Option Symbol} {storage : List (SymbolId × Nat)}
    (data : Catalogue StaticBlock) :
    addStorage describe data storage =
      (storage.filterMap fun entry => (describe entry.1).map fun s =>
        (s.storageLabel entry.2, s.storageBlock)).foldl
          (fun data entry => data.insert entry.1 entry.2) data := by
  rw [List.foldl_filterMap, addStorage]
  congr
  funext data entry
  cases describe entry.1 with
  | none => rfl
  | some s => rfl

/-- The labels of the storage of declared names. -/
theorem map_storageLabel {names : List String} {storage : List (SymbolId × Nat)}
    (sub : storage ⊆ checked.tree.storage 0)
    (named : storage.map (fun entry => checked.table.nameOf? entry.1) = names.map some) :
    (storage.filterMap fun entry => (checked.table.described? entry.1).map fun s =>
      (s.storageLabel entry.2, s.storageBlock)).map Prod.fst =
        List.zipWith variableLabel names (storage.map Prod.snd) := by
  induction storage generalizing names with
  | nil =>
    rw [List.map_nil, List.zipWith_nil_right]
    rfl
  | cons entry storage ih =>
    cases names with
    | nil => cases named
    | cons name names =>
      obtain ⟨first, rest⟩ := List.cons.inj named
      obtain ⟨mem, sub⟩ := List.cons_subset.1 sub
      have declared : entry.1 ∈ checked.tree.declared := by
        rw [← Block.map_fst_storage 0]
        exact List.mem_map_of_mem mem
      obtain ⟨b, bare, kind⟩ := h.valid.vars _ declared
      obtain ⟨s, found, rfl⟩ := SymbolTable.bare?_eq_some_iff.1 bare
      have described : checked.table.described? entry.1 = some s.described :=
        Option.map_eq_some_iff.2 ⟨s, found, rfl⟩
      have spelled : s.name = name := by
        simp only [SymbolTable.nameOf?, bare] at first
        exact Option.some.inj first
      have label : s.described.storageLabel entry.2 = variableLabel name entry.2 := by
        have isVariable : s.described.kind = .variable := kind
        have name_eq : s.described.name = name := spelled
        rw [Symbol.storageLabel, if_pos isVariable, name_eq]
        rfl
      simp only [List.filterMap_cons, described, Option.map_some, List.map_cons, List.zipWith_cons_cons,
        label, ih sub rest]

/-- No variable was written over another. -/
theorem perm_static {names : List String}
    (named : checked.tree.declared.map checked.table.nameOf? = names.map some) :
    checked.program.static.keys.Perm
      (List.zipWith variableLabel names ((checked.tree.storage 0).map Prod.snd)) := by
  rw [← Block.map_fst_storage 0, List.map_map] at named
  have labels := h.map_storageLabel (List.Subset.refl _) named
  have lengths : ((checked.tree.storage 0).map Prod.snd).length = names.length := by
    simpa using congrArg List.length named
  have distinct : (List.zipWith variableLabel names ((checked.tree.storage 0).map Prod.snd)).Nodup := by
    rw [← List.map_uncurry_zip_eq_zipWith]
    refine nodup_numbered ?_
    rw [List.map_snd_zip (Nat.le_of_eq lengths)]
    exact (Block.drawn_storage 0 checked.tree).nodup
  have entered := Catalogue.perm_foldl_insert (c := .empty) (labels ▸ distinct) fun _ _ => List.not_mem_nil
  rw [← addStorage_eq_foldl, Catalogue.empty, List.append_nil] at entered
  rw [← labels]
  exact entered.map Prod.fst

end CheckedSource.Lowers

/-- A program of a source is well formed, holds the names and the strings of the source, each in a block of
its own, and loads into every machine. -/
theorem Source.lower_wellFormed {source : String} {options : Options} {p : Program}
    (h : Source.lower source options = .ok p) :
    ∃ tree, Source.parse source (!options.stripComments) = .ok tree ∧ p.WellFormed ∧ p.Stores tree ∧
      ∀ m, ∃ m', Machine.load p m = .ok () m' := by
  obtain ⟨checked, table, hcheck, -, lowers, rfl, -⟩ := Source.lower_eq_ok h
  obtain ⟨tree, c, hparse, shaped, accepted, table_eq⟩ := Source.check_eq_ok hcheck
  have strings : (checked.tree.literals 0).map Prod.snd = tree.strings := by
    obtain ⟨_, hparse', erased⟩ := Source.erase_check hcheck
    cases hparse.symm.trans hparse'
    rw [Block.map_snd_literals 0 lowers.hasCode, ← Block.strings_erase, erased, Block.strings_erase]
  have named : checked.tree.declared.map checked.table.nameOf? = tree.declaredNames.map some := by
    rw [table_eq]
    exact Checker.checkBlock_named accepted shaped SymbolTable.initial_sound lowers.hasCode (.refl _)
  have stores : checked.program.Stores tree := by
    refine ⟨⟨(checked.tree.storage 0).map Prod.snd, ?_, lowers.perm_static named⟩,
      ⟨(checked.tree.literals 0).map Prod.fst, ?_, ?_⟩⟩
    · rw [← Block.map_fst_storage 0] at named
      simpa using congrArg List.length named
    · rw [← strings, List.length_map, List.length_map]
    · rw [← strings, List.zipWith_map, List.zipWith_self]
      exact CheckedSource.Lowers.perm_readOnly
  exact ⟨tree, hparse, lowers.wellFormed, stores, fun m =>
    ⟨_, Machine.load_eq_ok_iff.2 ⟨lowers.wellLabelled, rfl⟩⟩⟩

set_option maxRecDepth 100000 in
/-- A name in a block inside that of another, where the labels differ in the place of an underscore, and a
string in a condition that has its code twice. -/
theorem Source.lower_wellFormed_for :
    ∃ (source : String) (p : Program) (tree : Block),
      source = "\x7b int x_1; \x7b int x; \x7d for (x_1 = 0; \"a\" == \"b\"; x_1 = 1) \x7b \x7d \x7d" ∧
      Source.lower source = .ok p ∧ Source.parse source false = .ok tree ∧
      tree.declaredNames = ["x_1", "x"] ∧ tree.strings = ["a", "b", "a", "b"] ∧
      p.WellFormed ∧ p.Stores tree ∧ ∀ m, ∃ m', Machine.load p m = .ok () m' := by
  generalize hsource :
    "\x7b int x_1; \x7b int x; \x7d for (x_1 = 0; \"a\" == \"b\"; x_1 = 1) \x7b \x7d \x7d" = source
  have lowers : (Source.lower source).toOption.isSome ∧
      (Source.parse source false).toOption.any (fun tree =>
        tree.declaredNames = ["x_1", "x"] ∧ tree.strings = ["a", "b", "a", "b"]) := by
    subst hsource
    decide +kernel
  refine ⟨source, ?_⟩
  cases lowered : Source.lower source with
  | error e => simp [lowered, Except.toOption] at lowers
  | ok p =>
    obtain ⟨tree, hparse, wellFormed, stores, loads⟩ := Source.lower_wellFormed lowered
    have holds := lowers.2
    rw [show Source.parse source false = .ok tree from hparse] at holds
    obtain ⟨names, strings⟩ := of_decide_eq_true holds
    exact ⟨p, tree, rfl, rfl, hparse, names, strings, wellFormed, stores, loads⟩

end MiniC
