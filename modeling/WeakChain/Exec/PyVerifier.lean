import WeakChain.Exec.PyArgs
import WeakChain.Lib.KeywordCall

/-!
# The verifier of Python contracts

`verifier.py` looks at the syntax tree of a contract.  At the top level there may be imports,
definitions and constants only; the modules that are imported anywhere and the names that occur
anywhere are checked; and `parse_func` writes the interface, that has the positional parameters of
the last definition of every method (`find?_parseFunc`).

The trees come from Python.  A definition keeps its name and its parameters; its decorators,
annotations and defaults and its body are some code, in which the verifier sees the nodes that
`ast.walk` visits.
-/

namespace WeakChain

namespace PyVerifier

/-- A name that is imported (`ast.alias`). -/
structure Alias where
  /-- The name. -/
  name : Bytes
  /-- What it is called here. -/
  asname : Option Bytes

/-- A definition (`ast.FunctionDef`). -/
structure FunctionDef (Code : Type) where
  /-- The name. -/
  name : Bytes
  /-- There is no zero in an identifier. -/
  zero_notMem : 0 ∉ name
  /-- The parameters. -/
  args : Signature Bytes
  /-- The decorators, annotations, defaults and the body. -/
  code : Code

/-- A statement at the top level. -/
inductive Stmt (Code : Type)
  /-- `ast.Import`. -/
  | importNames (names : List Alias)
  /-- `ast.ImportFrom`. -/
  | importFrom (module : Option Bytes) (level : ℕ) (names : List Alias)
  /-- `ast.FunctionDef`. -/
  | functionDef (d : FunctionDef Code)
  /-- An expression that is a constant, such as a docstring. -/
  | constant
  /-- Any other statement. -/
  | other (code : Code)

/-- What the verifier looks at in a node. -/
inductive Node
  /-- The names of `ast.Import`. -/
  | importNames (names : List Bytes)
  /-- The module of `ast.ImportFrom`. -/
  | importFrom (module : Option Bytes)
  /-- The `id` of `ast.Name`. -/
  | name (id : Bytes)
  /-- Any other node. -/
  | other

open PyTxExecutor

/-- `Allowed_modules`. -/
def allowedModules : List Bytes := ["math", "cmath", "typing", "hashlib", "hmac"].map ascii

/-- `Dangerous_identifiers`. -/
def dangerousIdentifiers : List Bytes :=
  ["__import__", "breakpoint", "compile", "eval", "execfile", "exec", "get_ipython", "globals",
    "memoryview", "help", "id", "input", "open", "quit", "exit", "runfile", "vars"].map ascii

/-- `Special_args`. -/
def specialArgs : List Bytes := [ascii "_storage", ascii "_tx_context"]

variable {Code : Type}

/-- `ast.walk`, over one statement; `nodes` are those in a code. -/
def walk (nodes : Code → List Node) : Stmt Code → List Node
  | .importNames names => [.importNames (names.map Alias.name)]
  | .importFrom module _ _ => [.importFrom module]
  | .functionDef d => .other :: nodes d.code
  | .constant => [.other]
  | .other code => nodes code

/-- `verify_top_level_statements`, for one statement. -/
def verifyTopLevelStatement : Stmt Code → Bool
  | .other _ => false
  | _ => true

/-- `verify_imports`. -/
def verifyImports : Node → Bool
  | .importNames names => names.all fun name => name ∈ allowedModules
  | .importFrom module => module.any fun name => name ∈ allowedModules
  | _ => true

/-- `verify_identifiers`. -/
def verifyIdentifiers : Node → Bool
  | .name id => id ∉ dangerousIdentifiers
  | _ => true

/-- `verify`. -/
def verify (nodes : Code → List Node) (tree : List (Stmt Code)) : Bool :=
  tree.all verifyTopLevelStatement &&
    (tree.flatMap (walk nodes)).all fun n => verifyImports n && verifyIdentifiers n

/-- The loop of `parse_func`, with the interface so far; nothing if it throws. -/
def parseFunc (o : Abi) : List (Stmt Code) → Option Abi
  | [] => some o
  | .functionDef d :: rest =>
    if d.args.args.all fun a => !decide (Special a) || decide (a ∈ specialArgs) then
      parseFunc (o.set d.name d.args.args) rest
    else none
  | _ :: rest => parseFunc o rest

/-- `check_init_func`. -/
def checkInitFunc (o : Abi) : Bool :=
  ((o.find? (ascii "init")).getD []).all fun a => a ∈ specialArgs

/-- `verify_and_parse_func`, after the tree is there; nothing if it throws. -/
def verifyAndParseFunc (nodes : Code → List Node) (tree : List (Stmt Code)) : Option Abi := do
  if verify nodes tree then
    let o ← parseFunc .empty tree
    if checkInitFunc o then some o else none
  else none

/-- The last definition of a method. -/
def lastDef (m : Bytes) : List (Stmt Code) → Option (FunctionDef Code)
  | [] => none
  | .functionDef d :: rest => (lastDef m rest).or (if d.name = m then some d else none)
  | _ :: rest => lastDef m rest

variable {tree : List (Stmt Code)} {o abi : Abi} {m : Bytes} {d : FunctionDef Code}

theorem lastDef_functionDef_eq_some_iff {d' : FunctionDef Code} :
    lastDef m (.functionDef d :: tree) = some d' ↔
      lastDef m tree = some d' ∨ lastDef m tree = none ∧ d.name = m ∧ d = d' := by
  rw [lastDef, Option.or_eq_some_iff, Option.ite_none_right_eq_some, Option.some.injEq]

theorem lastDef_functionDef_eq_none_iff :
    lastDef m (.functionDef d :: tree) = none ↔ lastDef m tree = none ∧ d.name ≠ m := by
  rw [lastDef, Option.or_eq_none_iff, ite_eq_right_iff]
  simp

theorem name_of_lastDef (h : lastDef m tree = some d) : d.name = m := by
  induction tree with
  | nil => cases h
  | cons s tree ih =>
    cases s with
    | functionDef d' =>
      rcases lastDef_functionDef_eq_some_iff.1 h with h | ⟨-, hname, rfl⟩
      · exact ih h
      · exact hname
    | _ => exact ih h

/-- One definition. -/
theorem parseFunc_functionDef_eq_some_iff :
    parseFunc o (.functionDef d :: tree) = some abi ↔
      (∀ a ∈ d.args.args, Special a → a ∈ specialArgs) ∧
        parseFunc (o.set d.name d.args.args) tree = some abi := by
  rw [parseFunc, Option.ite_none_right_eq_some, List.all_eq_true]
  simp only [Bool.or_eq_true, Bool.not_eq_true', decide_eq_false_iff_not, decide_eq_true_eq,
    imp_iff_not_or]

/-- The interface has the parameters of the last definition of every method. -/
theorem find?_parseFunc (h : parseFunc o tree = some abi) (m : Bytes) :
    abi.find? m = ((lastDef m tree).map fun d => d.args.args).or (o.find? m) := by
  induction tree generalizing o with
  | nil =>
    cases h
    rfl
  | cons s tree ih =>
    cases s with
    | functionDef d =>
      rw [ih (parseFunc_functionDef_eq_some_iff.1 h).2, HashMap.find?_set, lastDef]
      cases hlast : lastDef m tree with
      | some d' => rfl
      | none =>
        by_cases hname : d.name = m
        · simp [hname]
        · simp [hname, Ne.symm hname]
    | _ => exact ih h

/-- The only parameters that begin with `_` are those that the executor provides. -/
theorem special_of_parseFunc (h : parseFunc o tree = some abi) (hd : lastDef m tree = some d) :
    ∀ a ∈ d.args.args, Special a → a ∈ specialArgs := by
  induction tree generalizing o with
  | nil => cases hd
  | cons s tree ih =>
    cases s with
    | functionDef d' =>
      obtain ⟨hspecial, hrest⟩ := parseFunc_functionDef_eq_some_iff.1 h
      rcases lastDef_functionDef_eq_some_iff.1 hd with hd | ⟨-, -, rfl⟩
      · exact ih hrest hd
      · exact hspecial
    | _ => exact ih h hd

/-- A method of the interface is a function of the contract, with these parameters. -/
theorem exists_lastDef {nodes : Code → List Node} (h : verifyAndParseFunc nodes tree = some abi)
    {required : List Bytes} (hm : abi.find? m = some required) :
    ∃ d, lastDef m tree = some d ∧ d.args.args = required ∧
      ∀ a ∈ required, Special a → a ∈ specialArgs := by
  have hparse : parseFunc .empty tree = some abi := by
    rw [verifyAndParseFunc] at h
    split_ifs at h
    obtain ⟨o, ho, hinit⟩ := Option.bind_eq_some_iff.1 h
    split_ifs at hinit
    rwa [← Option.some.inj hinit]
  have hempty : (HashMap.empty : Abi).find? m = none := rfl
  rw [find?_parseFunc hparse, hempty, Option.or_none] at hm
  obtain ⟨d, hd, rfl⟩ := Option.map_eq_some_iff.1 hm
  exact ⟨d, hd, rfl, special_of_parseFunc hparse hd⟩

end PyVerifier

end WeakChain
