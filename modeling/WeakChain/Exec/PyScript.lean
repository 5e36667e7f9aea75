import WeakChain.Exec.PyVerifier

/-!
# The script of a call

To call a method, the code of the contract is run with a template after it
(`invoke-template.py`), which reads the arguments and calls `METHOD(**args)`.  The template uses
the same names as the contract: what it assigns takes the place of what the contract has defined.

What Python does with the statements of a contract is a parameter, as far as it depends on code that
is not modelled (`Python`).  `callOf` is what the script calls and with which keywords, and
`Signature.bind` what the call binds.  So `describes_iff` says when a method that the interface
describes can be called as it says.
-/

namespace WeakChain

namespace PyScript

open PyTxExecutor PyVerifier

/-- What a name can be bound to. -/
inductive Value (Code Obj : Type)
  /-- The function that a definition makes; its parameters have different names. -/
  | function (d : FunctionDef Code) (nodup : d.args.params.Nodup)
  /-- What the template has bound to this name. -/
  | template (name : Bytes)
  /-- Anything else. -/
  | object (o : Obj)

/-- What the names of a module are bound to. -/
abbrev Namespace (Code Obj : Type) := Bytes → Option (Value Code Obj)

namespace Namespace

variable {Code Obj : Type}

/-- Bind a name. -/
def set (ns : Namespace Code Obj) (name : Bytes) (v : Value Code Obj) : Namespace Code Obj :=
  fun x => if x = name then some v else ns x

/-- The template binds some names. -/
def rebind (ns : Namespace Code Obj) (names : List Bytes) : Namespace Code Obj :=
  fun x => if x ∈ names then some (.template x) else ns x

end Namespace

/-- What is taken from Python. -/
structure Python (Code Obj : Type) where
  /-- The nodes that `ast.walk` visits in a code. -/
  nodes : Code → List Node
  /-- The syntax tree of a contract, for the verifier. -/
  parse : Bytes → Option (List (Stmt Code))
  /-- The statements that come before the template in the script for a contract and a method, as the
  interpreter reads them; nothing if the script cannot be compiled. -/
  script : Bytes → Bytes → Option (List (Stmt Code))
  /-- What `import` binds. -/
  importModule : Alias → Option Obj
  /-- A name of a module. -/
  moduleAttr : Option Bytes → ℕ → Bytes → Option Obj
  /-- What `from module import *` binds. -/
  publicNames : Option Bytes → ℕ → Option (List (Bytes × Obj))
  /-- Evaluate the decorators, annotations and defaults of a definition: what becomes of the names,
  and what the definition makes. -/
  define : FunctionDef Code → Namespace Code Obj → Option (Namespace Code Obj × Value Code Obj)
  /-- Execute another statement. -/
  execute : Code → Namespace Code Obj → Option (Namespace Code Obj)
  /-- The names that are there from the beginning. -/
  builtin : Bytes → Option Obj
  /-- What `json.load` returns for a file with this dictionary if `open` is something else; nothing
  if this throws. -/
  load : Value Code Obj → HashMap Bytes Json → Option (HashMap Bytes Json)

/-- A call by keyword. -/
structure Call (Code Obj : Type) where
  /-- What is called. -/
  callee : Option (Value Code Obj)
  /-- The keywords. -/
  keywords : List (Bytes × Json)

variable {Code Obj : Type} (py : Python Code Obj)

/-- The name that `import` binds. -/
def boundName (a : Alias) : Bytes := a.asname.getD (a.name.takeWhile (· ≠ 46))

/-- Import a name from a module. -/
def importName (module : Option Bytes) (level : ℕ) (ns : Namespace Code Obj) (a : Alias) :
    Option (Namespace Code Obj) :=
  if a.name = ascii "*" then
    (py.publicNames module level).map fun os =>
      os.foldl (fun ns o => ns.set o.1 (.object o.2)) ns
  else
    (py.moduleAttr module level a.name).map fun o => ns.set (a.asname.getD a.name) (.object o)

/-- Run a statement; nothing if it throws. -/
def runStmt (ns : Namespace Code Obj) : Stmt Code → Option (Namespace Code Obj)
  | .importNames names =>
    names.foldlM (fun ns a => (py.importModule a).map fun o => ns.set (boundName a) (.object o)) ns
  | .importFrom module level names => names.foldlM (importName py module level) ns
  | .functionDef d => (py.define d ns).map fun r => r.1.set d.name r.2
  | .constant => some ns
  | .other code => py.execute code ns

/-- The names after the statements of the contract, in the script for a method; nothing if the
script does not get that far. -/
def moduleOf (code m : Bytes) : Option (Namespace Code Obj) := do
  let body ← py.script code m
  body.foldlM (runStmt py) fun _ => none

/-- `with open(p, 'r') as f: args = json.load(f)`, for a file with this dictionary. -/
def readArgs (ns : Namespace Code Obj) (json : HashMap Bytes Json) : Option (HashMap Bytes Json) :=
  match ns (ascii "open") with
  | none => some json
  | some v => py.load v json

/-- The names that the template binds before it reads the arguments. -/
def namesBefore : List Bytes := ["json", "os", "args", "wd", "p"].map ascii

/-- Those that it binds then. -/
def namesAfter : List Bytes := ["f", "args", "out"].map ascii

/-- Look up a name. -/
def lookup (ns : Namespace Code Obj) (name : Bytes) : Option (Value Code Obj) :=
  (ns name).or ((py.builtin name).map .object)

/-- What the script for a method calls, with a file that has this dictionary; nothing if it throws
before. -/
def callOf (code m : Bytes) (json : HashMap Bytes Json) : Option (Call Code Obj) := do
  let ns ← moduleOf py code m
  -- import json; import os; args = None; wd = ...; p = ...
  let ns := ns.rebind namesBefore
  let args ← readArgs py ns json
  -- ... as f: args = ...; out = {}
  let ns := ns.rebind namesAfter
  match args.find? (ascii "_storage") with
  | some storage =>
    -- _storage = args['_storage']; del args['_storage']
    let ns := ns.rebind [ascii "_storage"]
    some ⟨lookup py ns m,
      (args.entries.filter fun e => e.1 ≠ ascii "_storage") ++ [(ascii "_storage", storage)]⟩
  | none => some ⟨lookup py ns m, args.entries⟩

/-- The dictionary that `json.load` makes of an object. -/
def dictOf (o : List (Bytes × Json)) : HashMap Bytes Json := HashMap.empty.setAll o

/-- The interface of a contract, if the verifier accepts it. -/
def abiOf (code : Bytes) : Option Abi := (py.parse code).bind (verifyAndParseFunc py.nodes)

/-- The function of a contract that has this name. -/
def functionOf (code m : Bytes) : Option (FunctionDef Code) := (py.parse code).bind (lastDef m)

/-- The call of the script is a call of this function with these arguments, and it binds all
parameters. -/
def Describes (code m : Bytes) (d : FunctionDef Code) (passed : List (Bytes × Json)) : Prop :=
  ∃ call nodup, callOf py code m (dictOf passed) = some call ∧
    call.callee = some (.function d nodup) ∧
    (∀ k, (Json.object call.keywords).at k = (Json.object passed).at k) ∧
    d.args.bind call.keywords = .ok ⟨call.keywords, []⟩

/-- After the statements of the contract the method is this function, and the template can read
these arguments. -/
def Loads (code m : Bytes) (d : FunctionDef Code) (passed : List (Bytes × Json)) : Prop :=
  ∃ ns nodup args, moduleOf py code m = some ns ∧ ns m = some (.function d nodup) ∧
    readArgs py ns (dictOf passed) = some args ∧ ∀ k, args.find? k = (Json.object passed).at k

/-- A method can be called: the contract is loaded, the template does not take the name of the
method for something else, and every parameter that is given by position only or by name only has a
default. -/
structure Callable (code m : Bytes) (d : FunctionDef Code) (passed : List (Bytes × Json)) :
    Prop where
  loads : Loads py code m d passed
  notMem : m ∉ namesBefore ++ namesAfter
  ne_storage : m = ascii "_storage" → ascii "_storage" ∉ d.args.args
  posonlyargs : d.args.requiredPosonlyargs = []
  kwonlyargs : ∀ k ∈ d.args.kwonlyargs, k.2 = true

/-! ### The names -/

theorem find?_dictOf {o : List (Bytes × Json)} (h : (Json.keys o).Nodup) (k : Bytes) :
    (dictOf o).find? k = (Json.object o).at k := by
  have hempty : (HashMap.empty : HashMap Bytes Json).find? k = none := rfl
  rw [dictOf, HashMap.find?_setAll, hempty, Option.or_none]
  refine Option.ext fun v => ?_
  have hreverse : (o.reverse.map Prod.fst).Nodup := by
    rw [List.map_reverse]
    exact List.nodup_reverse.2 h
  change HashMap.find? ⟨o.reverse, hreverse⟩ k = some v ↔ HashMap.find? ⟨o, h⟩ k = some v
  rw [HashMap.find?_eq_some_iff, HashMap.find?_eq_some_iff, List.mem_reverse]

theorem rebind_rebind (ns : Namespace Code Obj) (names names' : List Bytes) :
    (ns.rebind names).rebind names' = ns.rebind (names ++ names') := by
  funext x
  by_cases hx : x ∈ names'
  · simp [Namespace.rebind, hx]
  · simp [Namespace.rebind, hx]

/-- The template leaves a function alone whose name it does not bind. -/
theorem lookup_rebind_eq_function_iff {ns : Namespace Code Obj} {names : List Bytes} {m : Bytes}
    {d : FunctionDef Code} {nodup : d.args.params.Nodup} :
    lookup py (ns.rebind names) m = some (.function d nodup) ↔
      m ∉ names ∧ ns m = some (.function d nodup) := by
  by_cases hm : m ∈ names
  · simp [lookup, Namespace.rebind, hm]
  · have hbuiltin : (py.builtin m).map Value.object ≠ some (Value.function d nodup) := by
      cases py.builtin m <;> simp
    simp [lookup, Namespace.rebind, hm, Option.or_eq_some_iff, hbuiltin]

/-! ### The keywords -/

/-- The keywords of a call with a dictionary. -/
def keywordsOf (args : HashMap Bytes Json) : List (Bytes × Json) :=
  match args.find? (ascii "_storage") with
  | some storage =>
    (args.entries.filter fun e => e.1 ≠ ascii "_storage") ++ [(ascii "_storage", storage)]
  | none => args.entries

theorem nodup_keywordsOf (args : HashMap Bytes Json) :
    ((keywordsOf args).map Prod.fst).Nodup := by
  rw [keywordsOf]
  split
  · have hnotMem : ascii "_storage" ∉
        (args.entries.filter fun e => e.1 ≠ ascii "_storage").map Prod.fst := fun hmem =>
      (Signature.mem_map_fst_filter (P := (· ≠ ascii "_storage")).1 hmem).2 rfl
    rw [List.map_append]
    exact (args.nodup.sublist (List.filter_sublist.map _)).append (List.nodup_singleton _)
      (List.disjoint_singleton.2 hnotMem)
  · exact args.nodup

theorem mem_keywordsOf {args : HashMap Bytes Json} {e : Bytes × Json} :
    e ∈ keywordsOf args ↔ e ∈ args.entries := by
  rw [keywordsOf]
  split
  · next storage hstorage =>
    rw [List.mem_append, List.mem_filter, List.mem_singleton, decide_eq_true_eq]
    constructor
    · rintro (⟨he, -⟩ | rfl)
      · exact he
      · exact HashMap.find?_eq_some_iff.1 hstorage
    · intro he
      by_cases hk : e.1 = ascii "_storage"
      · have hv := HashMap.find?_of_mem he
        rw [hk, hstorage] at hv
        exact .inr (Prod.ext hk (Option.some.inj hv).symm)
      · exact .inl ⟨he, hk⟩
  · rfl

/-- The template changes the order of the arguments only. -/
theorem at_keywordsOf (args : HashMap Bytes Json) (k : Bytes) :
    (Json.object (keywordsOf args)).at k = args.find? k := by
  refine Option.ext fun v => ?_
  change HashMap.find? ⟨keywordsOf args, nodup_keywordsOf args⟩ k = some v ↔ _
  rw [HashMap.find?_eq_some_iff, HashMap.find?_eq_some_iff]
  exact mem_keywordsOf

/-- What the script calls. -/
theorem callOf_eq_some_iff {code m : Bytes} {json : HashMap Bytes Json} {call : Call Code Obj} :
    callOf py code m json = some call ↔ ∃ ns args, moduleOf py code m = some ns ∧
      readArgs py ns json = some args ∧
      call = ⟨lookup py (ns.rebind (namesBefore ++ namesAfter ++
        if (args.find? (ascii "_storage")).isSome then [ascii "_storage"] else [])) m,
        keywordsOf args⟩ := by
  rw [callOf, Option.bind_eq_bind, Option.bind_eq_some_iff]
  refine exists_congr fun ns => ?_
  rw [exists_and_left]
  refine and_congr_right fun _ => ?_
  -- the template does not bind `open`
  change (readArgs py ns json).bind _ = some call ↔ _
  rw [Option.bind_eq_some_iff]
  refine exists_congr fun args => and_congr_right fun _ => ?_
  rw [rebind_rebind, keywordsOf]
  cases args.find? (ascii "_storage") with
  | some storage =>
    simp only [rebind_rebind, Option.isSome_some, if_true, Option.some.injEq]
    exact eq_comm
  | none =>
    simp only [Option.isSome_none, Bool.false_eq_true, if_false, List.append_nil,
      Option.some.injEq]
    exact eq_comm

theorem mem_map_keywordsOf {args : HashMap Bytes Json} {k : Bytes} :
    k ∈ (keywordsOf args).map Prod.fst ↔ (args.find? k).isSome = true := by
  rw [← at_keywordsOf, ← Json.contains_eq, Json.contains_iff]
  rfl

/-- When the script calls a function of the contract, for arguments that are its parameters in
`args`. -/
theorem describes_iff_callable {code m : Bytes} {d : FunctionDef Code}
    {passed : List (Bytes × Json)} (hkeys : ∀ k, k ∈ Json.keys passed ↔ k ∈ d.args.args) :
    Describes py code m d passed ↔ Callable py code m d passed := by
  have hsome {args : HashMap Bytes Json} (hread : ∀ k, args.find? k = (Json.object passed).at k)
      (k : Bytes) : (args.find? k).isSome = true ↔ k ∈ d.args.args := by
    rw [hread, ← Json.contains_eq, Json.contains_iff, hkeys]
  constructor
  · rintro ⟨call, nodup, hcall, hcallee, hat, hbind⟩
    obtain ⟨ns, args, hns, hargs, rfl⟩ := (callOf_eq_some_iff py).1 hcall
    obtain ⟨hm, hfunction⟩ := (lookup_rebind_eq_function_iff py).1 hcallee
    have hread : ∀ k, args.find? k = (Json.object passed).at k := fun k =>
      (at_keywordsOf args k).symm.trans (hat k)
    obtain ⟨-, -, hposonly, hnamed⟩ := Signature.bind_eq_ok_self_iff.1 hbind
    refine ⟨⟨ns, nodup, args, hns, hfunction, hargs, hread⟩, fun h => hm (List.mem_append_left _ h),
      ?_, hposonly, ?_⟩
    · rintro rfl hstorage
      rw [if_pos ((hsome hread _).2 hstorage)] at hm
      exact hm (List.mem_append_right _ (List.mem_singleton_self _))
    · refine (Signature.requiredNamed_subset_args_iff nodup).1 fun k hk => ?_
      exact (hsome hread k).1 (mem_map_keywordsOf.1 (hnamed hk))
  · rintro ⟨⟨ns, nodup, args, hns, hfunction, hargs, hread⟩, hm, hstorage, hposonly, hkwonly⟩
    refine ⟨_, nodup, (callOf_eq_some_iff py).2 ⟨ns, args, hns, hargs, rfl⟩, ?_, ?_, ?_⟩
    · refine (lookup_rebind_eq_function_iff py).2 ⟨fun hmem => ?_, hfunction⟩
      rcases List.mem_append.1 hmem with hmem | hmem
      · exact hm hmem
      · split_ifs at hmem with hs
        · obtain rfl := List.mem_singleton.1 hmem
          exact hstorage rfl ((hsome hread _).1 hs)
        · cases hmem
    · exact fun k => (at_keywordsOf args k).trans (hread k)
    · refine Signature.bind_eq_ok_self_iff.2 ⟨nodup_keywordsOf args, fun k hk => ?_, hposonly, ?_⟩
      · exact List.mem_append_left _ ((hsome hread k).1 (mem_map_keywordsOf.1 hk))
      · intro k hk
        have hargs := (Signature.requiredNamed_subset_args_iff nodup).2 hkwonly hk
        exact mem_map_keywordsOf.2 ((hsome hread k).2 hargs)

/-! ### Loading a contract -/

/-- A definition that makes its function and does nothing else. -/
def Plain (d : FunctionDef Code) : Prop :=
  ∀ ns, ∃ nodup, py.define d ns = some (ns, .function d nodup)

/-- A statement that is run and leaves these names alone. -/
def Steady (names : List Bytes) (s : Stmt Code) : Prop :=
  ∀ ns, ∃ ns', runStmt py ns s = some ns' ∧ ∀ x ∈ names, ns' x = ns x

/-- A definition that is plain, or another statement that leaves these names alone. -/
def Simple (names : List Bytes) : Stmt Code → Prop
  | .functionDef d => Plain py d
  | s => Steady py names s

/-- Some statements bind a name to its last definition. -/
theorem run_of_simple {names : List Bytes} {body : List (Stmt Code)}
    (h : ∀ s ∈ body, Simple py names s) (ns : Namespace Code Obj) :
    ∃ ns', body.foldlM (runStmt py) ns = some ns' ∧ ∀ x ∈ names,
      (∀ d, lastDef x body = some d → ∃ nodup, ns' x = some (.function d nodup)) ∧
        (lastDef x body = none → ns' x = ns x) := by
  induction body generalizing ns with
  | nil => exact ⟨ns, rfl, fun x _ => ⟨nofun, fun _ => rfl⟩⟩
  | cons s body ih =>
    have ih := ih fun s hs => h s (List.mem_cons_of_mem _ hs)
    have hs := h s List.mem_cons_self
    cases s with
    | functionDef d =>
      obtain ⟨nodup, hdefine⟩ := hs ns
      obtain ⟨ns', hrun, hnames⟩ := ih (ns.set d.name (.function d nodup))
      refine ⟨ns', ?_, fun x hx => ⟨fun d' hd' => ?_, fun hnone => ?_⟩⟩
      · rw [List.foldlM_cons, runStmt, hdefine]
        exact hrun
      · rcases lastDef_functionDef_eq_some_iff.1 hd' with hd' | ⟨hnone, hname, rfl⟩
        · exact (hnames x hx).1 d' hd'
        · exact ⟨nodup, ((hnames x hx).2 hnone).trans (if_pos hname.symm)⟩
      · obtain ⟨hnone, hname⟩ := lastDef_functionDef_eq_none_iff.1 hnone
        exact ((hnames x hx).2 hnone).trans (if_neg hname.symm)
    | _ =>
      obtain ⟨ns₁, hstep, hkeep⟩ := hs ns
      obtain ⟨ns', hrun, hnames⟩ := ih ns₁
      refine ⟨ns', ?_, fun x hx => ⟨(hnames x hx).1, fun hnone => ?_⟩⟩
      · rw [List.foldlM_cons, hstep]
        exact hrun
      · exact ((hnames x hx).2 hnone).trans (hkeep x hx)

/-- A contract all of whose statements are simple is loaded. -/
theorem loads_of_simple {code m : Bytes} {body : List (Stmt Code)} {d : FunctionDef Code}
    {passed : List (Bytes × Json)} (hscript : py.script code m = some body)
    (hbody : ∀ s ∈ body, Simple py [m, ascii "open"] s) (hd : lastDef m body = some d)
    (hopen : lastDef (ascii "open") body = none) (hpassed : (Json.keys passed).Nodup) :
    Loads py code m d passed := by
  obtain ⟨ns, hns, hnames⟩ := run_of_simple py hbody fun _ => none
  obtain ⟨nodup, hm⟩ := (hnames m (by simp)).1 d hd
  have hunbound := (hnames (ascii "open") (by simp)).2 hopen
  refine ⟨ns, nodup, dictOf passed, ?_, hm, ?_, find?_dictOf hpassed⟩
  · rw [moduleOf, hscript]
    exact hns
  · rw [readArgs, hunbound]

/-! ### The arguments of a call -/

section Calls

variable [Keccak] [BoostJsonSerialize] {abi : Abi} {invoke args : List (Bytes × Json)} {m : Bytes}
  {required : List Bytes}

omit [BoostJsonSerialize] in
/-- The arguments of the script are what the method asks for. -/
theorem mem_keys_withSpecialArgs (hperm : (Json.keys args).Perm (userArgs required))
    (hspecial : ∀ a ∈ required, Special a → a ∈ specialArgs) (t : Tx) (storage : Json) (k : Bytes) :
    k ∈ Json.keys (withSpecialArgs required args t storage) ↔ k ∈ required := by
  rw [← Json.contains_iff, Json.contains_eq, (provides_withSpecialArgs hperm t storage).at_eq k]
  split_ifs with hstorage hcontext
  · exact iff_of_true rfl hstorage.2
  · exact iff_of_true rfl hcontext.2
  · rw [← Json.contains_eq, Json.contains_iff, hperm.mem_iff, mem_userArgs, and_iff_left_iff_imp]
    intro hk hspecialk
    rcases List.mem_pair.1 (hspecial k hk hspecialk) with rfl | rfl
    · exact hstorage ⟨rfl, hk⟩
    · exact hcontext ⟨rfl, hk⟩

omit [Keccak] [BoostJsonSerialize] in
/-- `def set(key, value, _storage)`. -/
def setDef : FunctionDef Unit where
  name := ascii "set"
  zero_notMem := by decide
  args := ⟨[], ["key", "value", "_storage"].map ascii, 0, none, [], none⟩
  code := ()

omit [Keccak] [BoostJsonSerialize] in
/-- `def f()`. -/
def fDef : FunctionDef Unit where
  name := ascii "f"
  zero_notMem := by decide
  args := ⟨[], [], 0, none, [], none⟩
  code := ()

omit [Keccak] [BoostJsonSerialize] in
/-- Python as far as it takes to read one contract, in which nothing is called before the template.
-/
def plainPython (source : Bytes) (tree : List (Stmt Unit)) : Python Unit Unit where
  nodes _ := []
  parse code := if code = source then some tree else none
  script code _ := if code = source then some tree else none
  importModule _ := some ()
  moduleAttr _ _ _ := some ()
  publicNames _ _ := some []
  define d ns := if nodup : d.args.params.Nodup then some (ns, .function d nodup) else none
  execute _ ns := some ns
  builtin _ := none
  load _ _ := none

omit [Keccak] [BoostJsonSerialize] in
theorem parse_plainPython (source : Bytes) (tree : List (Stmt Unit)) :
    (plainPython source tree).parse source = some tree := if_pos rfl

omit [Keccak] [BoostJsonSerialize] in
theorem script_plainPython (source m : Bytes) (tree : List (Stmt Unit)) :
    (plainPython source tree).script source m = some tree := if_pos rfl

end Calls

end PyScript

end WeakChain
