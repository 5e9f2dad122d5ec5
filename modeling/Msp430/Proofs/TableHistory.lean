import Mathlib.Data.List.Induction
import Mathlib.Data.List.MinMax
import Msp430.Data
import Msp430.Proofs.ObjectReader
import Msp430.Proofs.SymbolGrowth

/-! # The history of a symbol table

A symbol table takes requests to define and to settle names. What it holds is told by
the requests alone (`SymbolTable.find?_after`): a name leads to the symbol of the first
definition that was accepted for it, with the value of the latest request to settle it
since then. A definition is accepted unless there was one before
(`SymbolTable.define_after_iff`). The keys stay in order, and since names are ASCII
that is the order of their bytes (`Data.utf8_lt_utf8`), and the rows of the symbol
listing have their values in one column (`SymbolTable.pieces_render`).
-/

namespace Msp430

/-! ### Names in bytes -/

theorem ascii_of_isIdentifier {name : Text} (identifier : Text.isIdentifier name = true) :
    ∀ c ∈ name, c.toNat < 128 := by
  intro c member
  have solid := (Term.isSolid_of_isIdentifier identifier).2 c member
  simp only [Term.isSolid, Char.isAlphanum, Bool.or_eq_true, beq_iff_eq, ← Char.toNat_inj,
    isAlpha_iff_code, isDigit_iff_code] at solid
  change ((_ ∨ c.toNat = 95) ∨ c.toNat = 36) ∨ c.toNat = 37 at solid
  omega

theorem ascii_upper {text : Text} (ascii : ∀ c ∈ text, c.toNat < 128) :
    ∀ c ∈ Text.upper text, c.toNat < 128 := by
  rw [Text.upper, List.forall_mem_map]
  intro c member
  have small := ascii c member
  rw [toUpper_code]
  split <;> omega

namespace Data

/-- An ASCII text has one byte for each character. -/
theorem utf8_of_ascii {text : Text} (ascii : ∀ c ∈ text, c.toNat < 128) :
    utf8 text = text.map fun c => BitVec.ofNat 8 c.toNat := by
  induction text with
  | nil => rfl
  | cons c rest ih =>
      obtain ⟨small, later⟩ := List.forall_mem_cons.mp ascii
      have one : String.utf8EncodeChar c = [UInt8.ofNat c.toNat] :=
        if_pos (Nat.le_of_lt_succ small)
      rw [utf8, List.flatMap_cons, one, ← utf8, ih later]
      rfl

theorem length_utf8_of_ascii {text : Text} (ascii : ∀ c ∈ text, c.toNat < 128) :
    (utf8 text).length = text.length := by
  rw [utf8_of_ascii ascii, List.length_map]

/-- **The order of ASCII texts is the order of their bytes.** -/
theorem utf8_lt_utf8 {first second : Text} (firstAscii : ∀ c ∈ first, c.toNat < 128)
    (secondAscii : ∀ c ∈ second, c.toNat < 128) (below : first < second) :
    utf8 first < utf8 second := by
  rw [utf8_of_ascii firstAscii, utf8_of_ascii secondAscii]
  induction below with
  | nil => exact .nil
  | cons _ ih =>
      exact .cons (ih (List.forall_mem_cons.mp firstAscii).2 (List.forall_mem_cons.mp secondAscii).2)
  | rel less =>
      have small := (List.forall_mem_cons.mp firstAscii).1
      have large := (List.forall_mem_cons.mp secondAscii).1
      refine .rel ?_
      rw [BitVec.lt_def, BitVec.toNat_ofNat, BitVec.toNat_ofNat, Nat.mod_eq_of_lt (by omega),
        Nat.mod_eq_of_lt (by omega)]
      exact less

end Data

/-! ### Requests -/

/-- A request to a symbol table. -/
inductive TableCall where
  /-- Add a symbol. -/
  | define (symbol : Symbol) (kind : SymbolKind)
  /-- Give a symbol its value. -/
  | settle (name : Text) (word : Word)
deriving DecidableEq, Repr

/-- The value that a request gives to a name. -/
def TableCall.settles? (name : Text) : TableCall → Option Word
  | define _ _ => none
  | settle other word => if Text.upper other = Text.upper name then some word else none

/-- The value of the latest request to settle a name. -/
def lastSettled? (name : Text) (calls : List TableCall) : Option Word :=
  calls.reverse.findSome? (TableCall.settles? name)

/-- The last call that settles a name is the last one of all, or else one of those before. -/
theorem lastSettled?_concat (name : Text) (calls : List TableCall) (call : TableCall) :
    lastSettled? name (calls ++ [call]) =
      (call.settles? name).or (lastSettled? name calls) := by
  rw [lastSettled?, List.reverse_concat, ← List.singleton_append, List.findSome?_append,
    List.findSome?_singleton, ← lastSettled?]

namespace SymbolTable

/-- The table after a request. A definition that is refused leaves it as it is. -/
def call (table : SymbolTable) : TableCall → SymbolTable
  | .define symbol kind =>
    match table.define symbol kind with
    | .ok next => next
    | .error _ => table
  | .settle name word => table.settle name word

/-- The table that requests make of the empty one. -/
def after (calls : List TableCall) : SymbolTable :=
  calls.foldl call empty

theorem after_concat (calls : List TableCall) (request : TableCall) :
    after (calls ++ [request]) = (after calls).call request := by
  rw [after, List.foldl_concat, ← after]

theorem call_of_define {table next : SymbolTable} {symbol : Symbol} {kind : SymbolKind}
    (defined : table.define symbol kind = .ok next) :
    table.call (.define symbol kind) = next := by
  rw [call, defined]

/-- A definition that is refused changes nothing. -/
theorem call_of_refused {table : SymbolTable} {symbol : Symbol} {kind : SymbolKind}
    {fault : Fault} (refused : table.define symbol kind = .error fault) :
    table.call (.define symbol kind) = table := by
  rw [call, refused]

/-- Requests among which the definition of a symbol was accepted, and those that came later. -/
def Introduced (calls : List TableCall) (symbol : Symbol) (later : List TableCall) : Prop :=
  ∃ before kind next, calls = before ++ .define symbol kind :: later ∧
    (after before).define symbol kind = .ok next

/-- A request introduces the symbol that it defines, and comes later for all the others. -/
theorem introduced_concat {calls later : List TableCall} {request : TableCall} {symbol : Symbol} :
    Introduced (calls ++ [request]) symbol later ↔
      (later = [] ∧ ∃ kind next, request = .define symbol kind ∧
        (after calls).define symbol kind = .ok next) ∨
      ∃ earlier, later = earlier ++ [request] ∧ Introduced calls symbol earlier := by
  constructor
  · rintro ⟨before, kind, next, split, accepted⟩
    rcases List.eq_nil_or_concat later with rfl | ⟨earlier, last, rfl⟩
    · obtain ⟨rfl, same⟩ := List.append_inj' split rfl
      exact .inl ⟨rfl, kind, next, List.singleton_inj.mp same, accepted⟩
    · rw [List.concat_eq_append, ← List.cons_append, ← List.append_assoc] at split
      obtain ⟨whole, same⟩ := List.append_inj' split rfl
      obtain rfl := List.singleton_inj.mp same
      exact .inr ⟨earlier, List.concat_eq_append, before, kind, next, whole, accepted⟩
  · rintro (⟨rfl, kind, next, rfl, accepted⟩ | ⟨earlier, rfl, before, kind, next, rfl, accepted⟩)
    · exact ⟨calls, kind, next, rfl, accepted⟩
    · exact ⟨before, kind, next, by simp, accepted⟩

theorem exists_introduced_concat {calls : List TableCall} {request : TableCall}
    {holds : Symbol → List TableCall → Prop} :
    (∃ symbol later, Introduced (calls ++ [request]) symbol later ∧ holds symbol later) ↔
      (∃ symbol kind next, request = .define symbol kind ∧
        (after calls).define symbol kind = .ok next ∧ holds symbol []) ∨
      ∃ symbol earlier, Introduced calls symbol earlier ∧ holds symbol (earlier ++ [request]) := by
  simp only [introduced_concat]
  constructor
  · rintro ⟨symbol, later, ⟨rfl, kind, next, rfl, accepted⟩ | ⟨earlier, rfl, introduced⟩, holding⟩
    · exact .inl ⟨symbol, kind, next, rfl, accepted, holding⟩
    · exact .inr ⟨symbol, earlier, introduced, holding⟩
  · rintro (⟨symbol, kind, next, rfl, accepted, holding⟩ | ⟨symbol, earlier, introduced, holding⟩)
    · exact ⟨symbol, [], .inl ⟨rfl, kind, next, rfl, accepted⟩, holding⟩
    · exact ⟨symbol, _, .inr ⟨earlier, rfl, introduced⟩, holding⟩

/-! ### What a name leads to -/

/-- A symbol with the value that later requests give it. -/
def updated (symbol : Symbol) (later : List TableCall) : Symbol :=
  { symbol with value? := (lastSettled? symbol.name later).or symbol.value? }

/-- A definition changes no symbol that is there already. -/
theorem updated_concat_define (symbol other : Symbol) (kind : SymbolKind)
    (later : List TableCall) :
    updated symbol (later ++ [.define other kind]) = updated symbol later := by
  rw [updated, lastSettled?_concat, TableCall.settles?, Option.none_or, updated]

/-- A call that settles a name gives the value to the symbol with that name, and to no other. -/
theorem updated_concat_settle (symbol : Symbol) (name : Text) (word : Word)
    (later : List TableCall) :
    updated symbol (later ++ [.settle name word]) =
      if symbol.key = Text.upper name then { updated symbol later with value? := some word }
      else updated symbol later := by
  rw [updated, lastSettled?_concat, TableCall.settles?, Symbol.key]
  by_cases same : Text.upper symbol.name = Text.upper name
  · rw [if_pos same.symm, if_pos same, Option.some_or, Option.some_or, updated]
  · rw [if_neg (Ne.symm same), if_neg same, Option.none_or, updated]

/-- What the requests so far say about each name. -/
def Tells (calls : List TableCall) (table : SymbolTable) : Prop :=
  ∀ name symbol, table.find? name = some symbol ↔
    ∃ first later, Introduced calls first later ∧ first.key = Text.upper name ∧
      symbol = updated first later

namespace Tells

variable {calls : List TableCall} {symbol : Symbol} {kind : SymbolKind}

theorem refuse (tells : Tells calls (after calls))
    (refused : ∀ next, (after calls).define symbol kind ≠ .ok next) :
    Tells (calls ++ [.define symbol kind]) (after calls) := by
  intro name found
  rw [tells, exists_introduced_concat, or_iff_right]
  · simp only [updated_concat_define]
  · rintro ⟨_, _, next, ⟨⟩, accepted, _⟩
    exact refused next accepted

/-- A definition that is accepted introduces its symbol, under a name that led nowhere. -/
theorem define {next : SymbolTable} (tells : Tells calls (after calls))
    (defined : (after calls).define symbol kind = .ok next) :
    Tells (calls ++ [.define symbol kind]) next := by
  intro name found
  rw [find?_of_define defined, exists_introduced_concat]
  by_cases same : Text.upper name = symbol.key
  · rw [if_pos same, Option.some_inj, or_iff_left]
    · constructor
      · rintro rfl
        exact ⟨symbol, kind, next, rfl, defined, same.symm, rfl⟩
      · rintro ⟨_, _, _, ⟨⟩, _, _, rfl⟩
        rfl
    · rintro ⟨first, earlier, introduced, key, _⟩
      have taken := (tells symbol.name _).mpr ⟨first, earlier, introduced, key.trans same, rfl⟩
      rw [(define_eq_ok_iff.mp defined).2.1] at taken
      cases taken
  · rw [if_neg same, tells, or_iff_right]
    · simp only [updated_concat_define]
    · rintro ⟨_, _, _, ⟨⟩, _, key, _⟩
      exact same key.symm

/-- Settling changes the value of the name that is settled, if it leads somewhere. -/
theorem settle (tells : Tells calls (after calls)) (settled : Text) (word : Word) :
    Tells (calls ++ [.settle settled word]) ((after calls).settle settled word) := by
  intro name found
  rw [find?_settle, exists_introduced_concat, or_iff_right (by rintro ⟨_, _, _, ⟨⟩, _⟩)]
  by_cases same : Text.upper name = Text.upper settled
  · rw [if_pos same, Option.map_eq_some_iff]
    constructor
    · rintro ⟨symbol, before, rfl⟩
      obtain ⟨first, earlier, introduced, key, rfl⟩ := (tells name symbol).mp before
      refine ⟨first, earlier, introduced, key, ?_⟩
      rw [updated_concat_settle, if_pos (key.trans same)]
    · rintro ⟨first, earlier, introduced, key, rfl⟩
      refine ⟨_, (tells name _).mpr ⟨first, earlier, introduced, key, rfl⟩, ?_⟩
      rw [updated_concat_settle, if_pos (key.trans same)]
  · rw [if_neg same, tells]
    refine exists₂_congr fun first earlier => and_congr_right fun _ => and_congr_right fun key => ?_
    rw [updated_concat_settle, if_neg (key.symm ▸ same)]

/-- **A request is recorded,** whatever it asks for. -/
theorem call (tells : Tells calls (after calls)) (request : TableCall) :
    Tells (calls ++ [request]) ((after calls).call request) := by
  cases request with
  | define symbol kind =>
      cases result : (after calls).define symbol kind with
      | ok next =>
          rw [call_of_define result]
          exact tells.define result
      | error fault =>
          rw [call_of_refused result]
          exact tells.refuse fun next accepted => by simp [accepted] at result
  | settle name word => exact tells.settle name word

end Tells

/-- **What a table holds is told by the requests.** -/
theorem find?_after (calls : List TableCall) : Tells calls (after calls) := by
  induction calls using List.reverseRecOn with
  | nil =>
      intro name symbol
      constructor
      · rintro ⟨⟩
      · rintro ⟨_, _, ⟨before, _, _, split, _⟩, _⟩
        simp at split
  | append_singleton calls request ih =>
      rw [after_concat]
      exact ih.call request

/-- A definition is accepted unless one was accepted before for the same name. -/
theorem define_after_iff (calls : List TableCall) (symbol : Symbol) (kind : SymbolKind) :
    (∃ next, (after calls).define symbol kind = .ok next) ↔
      Text.isIdentifier symbol.name = true ∧
        ∀ first later, Introduced calls first later → first.key ≠ symbol.key := by
  simp only [define_eq_ok_iff, exists_and_left, exists_eq, and_true]
  refine and_congr_right fun _ => ?_
  rw [Option.eq_none_iff_forall_ne_some]
  constructor
  · intro absent first later introduced key
    exact absent _ ((find?_after calls symbol.name _).mpr ⟨first, later, introduced, key, rfl⟩)
  · intro fresh found taken
    obtain ⟨first, later, introduced, key, _⟩ := (find?_after calls symbol.name found).mp taken
    exact fresh first later introduced key

/-! ### The symbols in order -/

/-- A call keeps the symbols in order. -/
theorem Ordered.call {table : SymbolTable} (ordered : table.Ordered) (request : TableCall) :
    (table.call request).Ordered := by
  cases request with
  | define symbol kind =>
      cases result : table.define symbol kind with
      | ok next =>
          rw [call_of_define result]
          exact ordered.define result
      | error fault =>
          rw [call_of_refused result]
          exact ordered
  | settle name word => exact ordered.settle name word

/-- The symbols are in order after any calls. -/
theorem ordered_after (calls : List TableCall) : (after calls).Ordered := by
  induction calls using List.reverseRecOn with
  | nil => exact ordered_empty
  | append_singleton calls request ih =>
      rw [after_concat]
      exact ih.call request

/-- A symbol stands in the table if its name leads to it. -/
theorem mem_after_iff (calls : List TableCall) (symbol : Symbol) :
    symbol ∈ (after calls).symbols ↔ (after calls).find? symbol.name = some symbol := by
  rw [(ordered_after calls).find?_eq_some_iff]
  exact (and_iff_left rfl).symm

/-- Every symbol has an identifier as its name. -/
theorem isIdentifier_of_mem_after {calls : List TableCall} {symbol : Symbol}
    (member : symbol ∈ (after calls).symbols) : Text.isIdentifier symbol.name = true := by
  rw [mem_after_iff, find?_after] at member
  obtain ⟨first, later, ⟨before, kind, next, _, accepted⟩, _, rfl⟩ := member
  exact (define_eq_ok_iff.mp accepted).1

/-- The keys increase byte by byte. -/
theorem pairwise_utf8_after (calls : List TableCall) :
    (after calls).symbols.Pairwise fun earlier later =>
      Data.utf8 earlier.key < Data.utf8 later.key := by
  refine List.Pairwise.imp_of_mem ?_ (ordered_after calls)
  intro earlier later first second below
  exact Data.utf8_lt_utf8 (ascii_upper (ascii_of_isIdentifier (isIdentifier_of_mem_after first)))
    (ascii_upper (ascii_of_isIdentifier (isIdentifier_of_mem_after second))) below

/-! ### The symbol listing -/

/-- How a value is shown: by four hexadecimal digits in upper case that denote it, or by question
marks if there is none. -/
def IsShown : Option Word → Text → Prop
  | some word, shown =>
    Digits.Denotes 16 shown word.toNat ∧ shown.length = 4 ∧ Text.upper shown = shown
  | none, shown => shown = "????".toList

/-- A row of the symbol listing: a name, blanks, and the value in the given column, counted in
characters and in bytes. -/
def IsRow (column : Nat) (symbol : Symbol) (row : Text) : Prop :=
  ∃ gap shown, row = symbol.name ++ gap ++ shown ∧ IsShown symbol.value? shown ∧
    gap ≠ [] ∧ (∀ c ∈ gap, c = ' ') ∧
    (symbol.name ++ gap).length = column ∧ (Data.utf8 (symbol.name ++ gap)).length = column

/-- The column of values shows four digits or question marks. -/
theorem isShown_display (symbol : Symbol) : IsShown symbol.value? symbol.display := by
  unfold Symbol.display
  cases symbol.value? with
  | some word => exact ⟨ObjectFile.denotes_hex word, by simp [Word.hex, Digits.fixed], word.upper_hex⟩
  | none => rfl

/-- The row of a symbol. -/
def row (table : SymbolTable) (symbol : Symbol) : Text :=
  symbol.name.rightpad table.nameWidth ' ' ++ "     ".toList ++ symbol.display

/-- The column of names is wider than every name. -/
theorem length_le_nameWidth {table : SymbolTable} {symbol : Symbol}
    (member : symbol ∈ table.symbols) : symbol.name.length + 4 ≤ table.nameWidth := by
  have longest : symbol.name.length ≤
      (table.symbols.map fun symbol => symbol.name.length).foldr max 0 :=
    List.le_max_of_le' 0 (List.mem_map_of_mem member) le_rfl
  exact Nat.add_le_add_right longest 4

/-- The row of a symbol has its name, its value in the column of values, and nothing else. -/
theorem isRow_row {table : SymbolTable} {symbol : Symbol} (member : symbol ∈ table.symbols)
    (identifier : Text.isIdentifier symbol.name = true) :
    IsRow (table.nameWidth + 5) symbol (table.row symbol) := by
  have fits := length_le_nameWidth member
  let gap := List.replicate (table.nameWidth - symbol.name.length) ' ' ++ "     ".toList
  have blank : ∀ c ∈ gap, c = ' ' := by
    intro c inside
    rcases List.mem_append.mp inside with first | second
    · exact List.eq_of_mem_replicate first
    · simpa using second
  have length : (symbol.name ++ gap).length = table.nameWidth + 5 := by
    have whole : (symbol.name ++ gap).length =
        symbol.name.length + (table.nameWidth - symbol.name.length + 5) := by
      simp [gap]
    omega
  have ascii : ∀ c ∈ symbol.name ++ gap, c.toNat < 128 := by
    intro c inside
    rcases List.mem_append.mp inside with first | second
    · exact ascii_of_isIdentifier identifier c first
    · rw [blank c second]
      decide
  refine ⟨gap, symbol.display, ?_, isShown_display symbol, by simp [gap], blank, length, ?_⟩
  · rw [row, List.rightpad, List.append_assoc symbol.name]
  · rw [Data.length_utf8_of_ascii ascii, length]

/-- The row of a symbol has no end inside. -/
theorem newline_notMem_row (table : SymbolTable) {symbol : Symbol}
    (identifier : Text.isIdentifier symbol.name = true) : '\n' ∉ table.row symbol := by
  have name : '\n' ∉ symbol.name := fun member =>
    absurd ((Term.isSolid_of_isIdentifier identifier).2 _ member) (by decide)
  have value : '\n' ∉ symbol.display := by
    unfold Symbol.display
    cases symbol.value? with
    | some word => exact Digits.notMem_of_denotes (by omega) (ObjectFile.denotes_hex word) (by decide)
    | none => decide
  unfold row List.rightpad
  simp only [List.mem_append, List.mem_replicate, not_or]
  exact ⟨⟨⟨name, by simp⟩, by decide⟩, value⟩

/-- The symbol listing has one row for each symbol. -/
theorem pieces_render {table : SymbolTable}
    (identifiers : ∀ symbol ∈ table.symbols, Text.isIdentifier symbol.name = true) :
    table.render.splitOn '\n' = table.symbols.map table.row ++ [[]] := by
  have unended : ∀ row ∈ table.symbols.map table.row, '\n' ∉ row := by
    rw [List.forall_mem_map]
    exact fun symbol member => newline_notMem_row table (identifiers symbol member)
  have whole : table.render =
      (table.symbols.map table.row).flatMap (fun row => row ++ ['\n']) ++ [] := by
    rw [List.append_nil, List.flatMap_map]
    rfl
  rw [whole, Text.splitOn_flatMap unended]
  rfl

/-- The width of the name column is that of the longest name in bytes, and four blanks. -/
theorem nameWidth_eq {table : SymbolTable}
    (identifiers : ∀ symbol ∈ table.symbols, Text.isIdentifier symbol.name = true) :
    table.nameWidth =
      (table.symbols.map fun symbol => (Data.utf8 symbol.name).length).foldr max 0 + 4 := by
  have lengths : (table.symbols.map fun symbol => symbol.name.length) =
      table.symbols.map fun symbol => (Data.utf8 symbol.name).length :=
    List.map_congr_left fun symbol member =>
      (Data.length_utf8_of_ascii (ascii_of_isIdentifier (identifiers symbol member))).symm
  rw [nameWidth, lengths]

/-! ### The table as a record -/

/-- A table that is a faithful record of the requests made of it. -/
structure Records (calls : List TableCall) (table : SymbolTable) : Prop where
  /-- The keys increase in the order of their bytes. -/
  increasing : table.symbols.Pairwise fun earlier later =>
    Data.utf8 earlier.key < Data.utf8 later.key
  /-- The names are identifiers, and the keys are their upper-case spellings. -/
  named : ∀ symbol ∈ table.symbols,
    Text.isIdentifier symbol.name = true ∧ symbol.key = symbol.name.map Char.toUpper
  /-- A definition is accepted if its name is an identifier and no definition has been accepted
  for that name, in whatever letter case. -/
  accepts : ∀ symbol kind, (∃ next, table.define symbol kind = .ok next) ↔
    Text.isIdentifier symbol.name = true ∧
      ∀ first later, Introduced calls first later → first.key ≠ symbol.key
  /-- A definition that is refused changes nothing. -/
  refuses : ∀ symbol kind fault, table.define symbol kind = .error fault →
    table.call (.define symbol kind) = table
  /-- A name leads to the symbol whose definition was accepted. Its name and its line are as they
  were defined, and its value is that of the latest settling since then, or else as defined. -/
  finds : ∀ name symbol, table.find? name = some symbol ↔
    ∃ first later, Introduced calls first later ∧ first.key = Text.upper name ∧
      symbol.name = first.name ∧ symbol.line = first.line ∧
      symbol.value? = (lastSettled? first.name later).or first.value?
  /-- The symbols are those that the names lead to. -/
  lists : ∀ symbol, symbol ∈ table.symbols ↔ table.find? symbol.name = some symbol
  /-- Settling a name changes no symbol of another name. -/
  spares : ∀ name word query, Text.upper query ≠ Text.upper name →
    (table.settle name word).find? query = table.find? query
  /-- Settling creates no symbol, and none loses its place, its name or its line. -/
  creates : ∀ name word,
    (table.settle name word).symbols.map (fun symbol => (symbol.name, symbol.line)) =
      table.symbols.map fun symbol => (symbol.name, symbol.line)
  /-- The listing has one row for each symbol, in the order of the keys, with its name and its value,
  and all values are in one column, nine places behind the longest name. -/
  shows : ∃ rows, table.render.splitOn '\n' = rows ++ [[]] ∧ List.Forall₂
    (IsRow ((table.symbols.map fun symbol => (Data.utf8 symbol.name).length).foldr max 0 + 9))
    table.symbols rows

/-- **The first definition of a name wins.** After any requests, accepted or refused, the table is
a faithful record of them. -/
theorem records_after (calls : List TableCall) : Records calls (after calls) := by
  have identifiers : ∀ symbol ∈ (after calls).symbols, Text.isIdentifier symbol.name = true :=
    fun symbol => isIdentifier_of_mem_after
  constructor
  case increasing => exact pairwise_utf8_after calls
  case named => exact fun symbol member => ⟨identifiers symbol member, rfl⟩
  case accepts => exact define_after_iff calls
  case refuses => exact fun symbol kind fault => call_of_refused
  case finds =>
    intro name symbol
    rw [find?_after calls name symbol]
    refine exists₂_congr fun first later => and_congr_right fun _ => and_congr_right fun _ => ?_
    obtain ⟨name, value?, line⟩ := symbol
    rw [updated, Symbol.mk.injEq]
    exact and_congr_right fun _ => and_comm
  case lists => exact mem_after_iff calls
  case spares =>
    intro name word query different
    rw [find?_settle, if_neg different]
  case creates =>
    intro name word
    rw [settle, List.map_map]
    refine List.map_congr_left fun symbol _ => ?_
    dsimp only [Function.comp_apply]
    split <;> rfl
  case shows =>
    refine ⟨_, pieces_render identifiers, ?_⟩
    rw [List.forall₂_map_right_iff, List.forall₂_same]
    intro symbol member
    have row := isRow_row member (identifiers symbol member)
    rwa [nameWidth_eq identifiers] at row

end SymbolTable

end Msp430
