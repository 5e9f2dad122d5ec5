import Mathlib.Data.Char
import Mathlib.Data.List.Lex
import Msp430.Symbol.Table

/-! # Growth of the symbol table

A symbol table changes in two ways only: a new name is defined
(`SymbolTable.define`), or a symbol without a value is given one
(`SymbolTable.settle`). Both keep the keys in strictly increasing order
(`SymbolTable.Ordered`), so that a name has at most one symbol, and both only add
to what is known: no name or line changes and no value is lost
(`SymbolTable.Grows`). A value that was read from a table at some time is
therefore still its value in every later table
(`SymbolTable.Grows.value?_extends`).
-/

namespace Msp430

namespace Resolver

/-- A resolver extends another one if it gives every name the value that the other one gives it,
and perhaps values to further names. -/
def Extends (later earlier : Resolver) : Prop :=
  ∀ ⦃name word⦄, earlier name = some word → later name = some word

theorem Extends.refl (resolver : Resolver) : resolver.Extends resolver :=
  fun _ _ found => found

theorem Extends.trans {first second third : Resolver} (upper : third.Extends second)
    (lower : second.Extends first) : third.Extends first :=
  fun _ _ found => upper (lower found)

theorem Extends.antisymm {first second : Resolver} (upper : second.Extends first)
    (lower : first.Extends second) : first = second := by
  funext name
  cases found : first name with
  | some word => exact (upper found).symm
  | none =>
      cases other : second name with
      | none => rfl
      | some word =>
          rw [lower other] at found
          cases found

/-- The peripheral names never hide a name of the program. -/
theorem orPeripheral_extends (resolver : Resolver) : resolver.orPeripheral.Extends resolver := by
  intro name word found
  simp [orPeripheral, found]

theorem orPeripheral_of_none {resolver : Resolver} {name : Text} (missing : resolver name = none) :
    resolver.orPeripheral name = Peripheral.value? name := by
  simp [orPeripheral, missing]

/-- A name has a value, counting the peripherals, if the program or the chip gives it one. -/
theorem isSome_orPeripheral (resolver : Resolver) (name : Text) :
    (resolver.orPeripheral name).isSome ↔
      (resolver name).isSome ∨ (Peripheral.value? name).isSome := by
  cases found : resolver name with
  | none => simp [orPeripheral_of_none found]
  | some word => simp [resolver.orPeripheral_extends found]

end Resolver

namespace Symbol

/-- Inserting a symbol that a test refuses does not change what the test finds. -/
theorem find?_insertByKey_of_false {test : Symbol → Bool} {symbol : Symbol}
    (refused : test symbol = false) (symbols : List Symbol) :
    (symbol.insertByKey symbols).find? test = symbols.find? test := by
  induction symbols with
  | nil => simp [insertByKey, refused]
  | cons head rest ih =>
      unfold insertByKey
      split
      · rw [List.find?_cons_of_neg (by simp [refused])]
      · simp only [List.find?_cons, ih]

/-- A test that finds nothing in a list finds the inserted symbol that it accepts. -/
theorem find?_insertByKey_of_true {test : Symbol → Bool} {symbol : Symbol}
    (accepted : test symbol = true) {symbols : List Symbol} (absent : symbols.find? test = none) :
    (symbol.insertByKey symbols).find? test = some symbol := by
  induction symbols with
  | nil => simp [insertByKey, accepted]
  | cons head rest ih =>
      rw [List.find?_eq_none] at absent
      have refused : ¬ test head = true := absent head List.mem_cons_self
      have restAbsent : rest.find? test = none :=
        List.find?_eq_none.mpr fun other member => absent other (List.mem_cons_of_mem _ member)
      unfold insertByKey
      split
      · rw [List.find?_cons_of_pos accepted]
      · rw [List.find?_cons_of_neg refused, ih restAbsent]

theorem mem_insertByKey {symbol other : Symbol} {symbols : List Symbol} :
    other ∈ symbol.insertByKey symbols ↔ other = symbol ∨ other ∈ symbols := by
  induction symbols with
  | nil => simp [insertByKey]
  | cons head rest ih =>
      unfold insertByKey
      split
      · simp only [List.mem_cons]
      · simp only [List.mem_cons, ih]
        exact or_left_comm

/-- Inserting a symbol with a new key keeps the keys in increasing order. -/
theorem pairwise_insertByKey {symbol : Symbol} {symbols : List Symbol}
    (ordered : symbols.Pairwise fun earlier later => earlier.key < later.key)
    (fresh : ∀ other ∈ symbols, other.key ≠ symbol.key) :
    (symbol.insertByKey symbols).Pairwise fun earlier later => earlier.key < later.key := by
  induction symbols with
  | nil => simp [insertByKey]
  | cons head rest ih =>
      obtain ⟨headBelow, restOrdered⟩ := List.pairwise_cons.mp ordered
      unfold insertByKey
      split
      case isTrue below =>
        refine List.pairwise_cons.mpr ⟨?_, ordered⟩
        intro other member
        rcases List.mem_cons.mp member with rfl | inRest
        · exact below
        · exact below.trans (headBelow other inRest)
      case isFalse notBelow =>
        have headFirst : head.key < symbol.key :=
          lt_of_le_of_ne (not_lt.mp notBelow) (fresh head List.mem_cons_self)
        refine List.pairwise_cons.mpr ⟨?_, ih restOrdered fun other member =>
          fresh other (List.mem_cons_of_mem _ member)⟩
        intro other member
        rcases mem_insertByKey.mp member with rfl | inRest
        · exact headFirst
        · exact headBelow other inRest

/-- A change that leaves the keys alone can be made before an insertion or after it. -/
theorem insertByKey_map {change : Symbol → Symbol}
    (sameKey : ∀ symbol, (change symbol).key = symbol.key) (symbol : Symbol)
    (symbols : List Symbol) :
    (change symbol).insertByKey (symbols.map change) = (symbol.insertByKey symbols).map change := by
  induction symbols with
  | nil => rfl
  | cons head rest ih =>
      rw [List.map_cons, insertByKey, sameKey, sameKey, insertByKey, ih]
      split <;> rfl

end Symbol

namespace SymbolTable

/-- The keys of a table increase from each symbol to the next. -/
def Ordered (table : SymbolTable) : Prop :=
  table.symbols.Pairwise fun earlier later => earlier.key < later.key

theorem ordered_empty : empty.Ordered :=
  List.Pairwise.nil

/-- In an ordered table a symbol is found under its name, and nothing else is. -/
theorem Ordered.find?_eq_some_iff {table : SymbolTable} (ordered : table.Ordered) {name : Text}
    {symbol : Symbol} :
    table.find? name = some symbol ↔ symbol ∈ table.symbols ∧ symbol.key = Text.upper name := by
  constructor
  · intro found
    exact ⟨List.mem_of_find?_eq_some found, by simpa using List.find?_some found⟩
  · rintro ⟨member, sameKey⟩
    obtain ⟨before, after, split⟩ := List.append_of_mem member
    refine List.find?_eq_some_iff_append.mpr ⟨by simpa using sameKey, before, after, split, ?_⟩
    intro other inBefore
    rw [Ordered, split] at ordered
    have below := (List.pairwise_append.mp ordered).2.2 other inBefore symbol List.mem_cons_self
    rw [sameKey] at below
    simpa using below.ne

/-- Names with the same upper-case spelling are looked up alike. -/
theorem find?_congr (table : SymbolTable) {name other : Text}
    (same : Text.upper name = Text.upper other) : table.find? name = table.find? other := by
  simp only [find?, same]

theorem value?_congr (table : SymbolTable) {name other : Text}
    (same : Text.upper name = Text.upper other) : table.value? name = table.value? other := by
  simp only [value?, table.find?_congr same]

theorem value?_eq_some_iff {table : SymbolTable} {name : Text} {word : Word} :
    table.value? name = some word ↔
      ∃ symbol, table.find? name = some symbol ∧ symbol.value? = some word := by
  simp only [value?, Option.bind_eq_some_iff]

/-- A change that leaves the keys alone can be made before a look-up or after it. -/
theorem find?_map {change : Symbol → Symbol}
    (sameKey : ∀ symbol, (change symbol).key = symbol.key) (table : SymbolTable) (name : Text) :
    find? ⟨table.symbols.map change⟩ name = (table.find? name).map change := by
  rw [find?, List.find?_map, find?]
  simp only [Function.comp_def, sameKey]

/-! ### Definitions -/

/-- A definition is accepted exactly for an identifier that is not defined yet. -/
theorem define_eq_ok_iff {table next : SymbolTable} {symbol : Symbol} {kind : SymbolKind} :
    table.define symbol kind = .ok next ↔
      Text.isIdentifier symbol.name = true ∧ table.find? symbol.name = none ∧
        next = ⟨symbol.insertByKey table.symbols⟩ := by
  unfold define
  cases identifier : Text.isIdentifier symbol.name with
  | false => simp
  | true =>
      cases found : table.find? symbol.name with
      | none => simp [eq_comm]
      | some other => simp

/-- After a definition its name leads to the new symbol, and every other name leads where it led
before. -/
theorem find?_of_define {table next : SymbolTable} {symbol : Symbol} {kind : SymbolKind}
    (defined : table.define symbol kind = .ok next) (query : Text) :
    next.find? query =
      if Text.upper query = symbol.key then some symbol else table.find? query := by
  obtain ⟨_, absent, rfl⟩ := define_eq_ok_iff.mp defined
  by_cases same : Text.upper query = symbol.key
  · rw [if_pos same]
    apply Symbol.find?_insertByKey_of_true (by simpa using same.symm)
    exact (table.find?_congr same).trans absent
  · rw [if_neg same]
    exact Symbol.find?_insertByKey_of_false (by simpa using Ne.symm same) _

/-- A definition leaves every symbol that was there as it was. -/
theorem find?_of_define_of_some {table next : SymbolTable} {symbol old : Symbol}
    {kind : SymbolKind} (defined : table.define symbol kind = .ok next) {name : Text}
    (found : table.find? name = some old) : next.find? name = some old := by
  have different : Text.upper name ≠ symbol.key := by
    intro same
    have absent := (define_eq_ok_iff.mp defined).2.1
    rw [← table.find?_congr same, found] at absent
    cases absent
  rw [find?_of_define defined, if_neg different, found]

theorem find?_of_define_self {table next : SymbolTable} {symbol : Symbol} {kind : SymbolKind}
    (defined : table.define symbol kind = .ok next) : next.find? symbol.name = some symbol :=
  (find?_of_define defined symbol.name).trans (if_pos rfl)

theorem value?_of_define {table next : SymbolTable} {symbol : Symbol} {kind : SymbolKind}
    (defined : table.define symbol kind = .ok next) (query : Text) :
    next.value? query =
      if Text.upper query = symbol.key then symbol.value? else table.value? query := by
  unfold value?
  rw [find?_of_define defined]
  split <;> rfl

theorem mem_symbols_of_define {table next : SymbolTable} {symbol other : Symbol}
    {kind : SymbolKind} (defined : table.define symbol kind = .ok next) :
    other ∈ next.symbols ↔ other = symbol ∨ other ∈ table.symbols := by
  obtain ⟨_, _, rfl⟩ := define_eq_ok_iff.mp defined
  exact Symbol.mem_insertByKey

theorem Ordered.define {table next : SymbolTable} (ordered : table.Ordered) {symbol : Symbol}
    {kind : SymbolKind} (defined : table.define symbol kind = .ok next) : next.Ordered := by
  obtain ⟨_, absent, rfl⟩ := define_eq_ok_iff.mp defined
  apply Symbol.pairwise_insertByKey ordered
  intro other member
  simpa [Symbol.key] using List.find?_eq_none.mp absent other member

/-! ### Settling -/

/-- Settling a name sets the value of its symbol, if it has one, and touches no other name. -/
theorem find?_settle (table : SymbolTable) (name : Text) (word : Word) (query : Text) :
    (table.settle name word).find? query =
      if Text.upper query = Text.upper name then
        (table.find? query).map fun symbol => { symbol with value? := some word }
      else table.find? query := by
  have keyKept : ∀ symbol : Symbol,
      (if symbol.key == Text.upper name then { symbol with value? := some word } else symbol).key =
        symbol.key := by
    intro symbol
    split <;> rfl
  unfold find? settle
  rw [List.find?_map]
  simp only [Function.comp_def, keyKept]
  cases found : table.symbols.find? fun symbol => symbol.key == Text.upper query with
  | none => simp
  | some symbol =>
      have sameKey : symbol.key = Text.upper query := by simpa using List.find?_some found
      by_cases same : Text.upper query = Text.upper name
      · simp [sameKey, same]
      · simp [sameKey, same]

theorem Ordered.settle {table : SymbolTable} (ordered : table.Ordered) (name : Text)
    (word : Word) : (table.settle name word).Ordered := by
  refine List.pairwise_map.mpr (List.Pairwise.imp ?_ ordered)
  intro earlier later below
  split <;> split <;> exact below

/-- The value that settling gives, to a name that is defined. -/
theorem value?_settle_self {table : SymbolTable} {name : Text} {symbol : Symbol}
    (found : table.find? name = some symbol) (word : Word) :
    (table.settle name word).value? name = some word := by
  simp only [value?, find?_settle, if_pos, found, Option.map_some, Option.bind_some]

theorem value?_settle_of_ne (table : SymbolTable) {name query : Text} (word : Word)
    (different : Text.upper query ≠ Text.upper name) :
    (table.settle name word).value? query = table.value? query := by
  simp only [value?, find?_settle, if_neg different]

/-! ### Growth -/

/-- A table grows into another one that still has all its symbols, with their names and lines and
with the values that they had. -/
def Grows (earlier later : SymbolTable) : Prop :=
  ∀ ⦃name symbol⦄, earlier.find? name = some symbol →
    ∃ grown, later.find? name = some grown ∧ grown.name = symbol.name ∧
      grown.line = symbol.line ∧ ∀ word, symbol.value? = some word → grown.value? = some word

theorem Grows.refl (table : SymbolTable) : table.Grows table :=
  fun _ symbol found => ⟨symbol, found, rfl, rfl, fun _ valued => valued⟩

theorem Grows.trans {first second third : SymbolTable} (lower : first.Grows second)
    (upper : second.Grows third) : first.Grows third := by
  intro name symbol found
  obtain ⟨middle, foundMiddle, middleName, middleLine, middleValue⟩ := lower found
  obtain ⟨grown, foundGrown, grownName, grownLine, grownValue⟩ := upper foundMiddle
  exact ⟨grown, foundGrown, grownName.trans middleName, grownLine.trans middleLine,
    fun word valued => grownValue word (middleValue word valued)⟩

/-- Defining a name adds to a table. -/
theorem grows_of_define {table next : SymbolTable} {symbol : Symbol} {kind : SymbolKind}
    (defined : table.define symbol kind = .ok next) : table.Grows next := by
  intro name old found
  exact ⟨old, find?_of_define_of_some defined found, rfl, rfl, fun _ valued => valued⟩

/-- Settling a name that has no value yet adds to a table. -/
theorem grows_settle {table : SymbolTable} {name : Text} (unsettled : table.value? name = none)
    (word : Word) : table.Grows (table.settle name word) := by
  intro query symbol found
  rw [find?_settle, found]
  by_cases same : Text.upper query = Text.upper name
  · refine ⟨{ symbol with value? := some word }, by rw [if_pos same]; rfl, rfl, rfl, ?_⟩
    intro old valued
    rw [← table.value?_congr same, value?_eq_some_iff.mpr ⟨symbol, found, valued⟩] at unsettled
    cases unsettled
  · exact ⟨symbol, if_neg same, rfl, rfl, fun _ valued => valued⟩

/-- **Values are final.** What a table knows is still known, and the same, when it has grown. -/
theorem Grows.value?_extends {earlier later : SymbolTable} (grows : earlier.Grows later) :
    later.value?.Extends earlier.value? := by
  intro name word valued
  obtain ⟨symbol, found, symbolValue⟩ := value?_eq_some_iff.mp valued
  obtain ⟨grown, foundGrown, _, _, kept⟩ := grows found
  exact value?_eq_some_iff.mpr ⟨grown, foundGrown, kept word symbolValue⟩

/-- A growing table keeps the line on which a name was defined. -/
theorem Grows.line_of_find? {earlier later : SymbolTable} (grows : earlier.Grows later)
    {name : Text} {symbol grown : Symbol} (found : earlier.find? name = some symbol)
    (foundLater : later.find? name = some grown) : grown.line = symbol.line := by
  obtain ⟨other, foundOther, _, sameLine, _⟩ := grows found
  rw [foundLater] at foundOther
  rw [Option.some.inj foundOther, sameLine]

end SymbolTable

end Msp430
