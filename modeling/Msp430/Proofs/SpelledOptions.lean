import Msp430.Command.Options
import Msp430.Proofs.LetterCase
import Msp430.Proofs.ObjectReader

/-! # Command lines for given options

All options can be asked for: every set of options with a file has a command line
that is read as these options (`Options.read_spell`).
-/

namespace Msp430

namespace Options

/-- A command line that asks for the given options. -/
def spell (options : Options) : List Text :=
  (options.origin?.map fun origin => "--origin=0x".toList ++ origin.hex).toList ++
    ((if options.list then ["-l".toList] else []) ++
    ((if options.symbols then ["-s".toList] else []) ++
    ((if options.verbose then ["-v".toList] else []) ++
    ((if options.writeFiles then ["-w".toList] else []) ++ "--".toList :: options.files))))

theorem readOrigin?_hex (origin : Word) :
    readOrigin? ("0x".toList ++ origin.hex) = some origin := by
  have unsigned : origin.hex.head? ≠ some '+' := fun plus =>
    Digits.notMem_of_denotes (by omega) (ObjectFile.denotes_hex origin) (by decide)
      (List.mem_of_head? plus)
  have mark : "0x".toList = ['0', 'x'] := by decide
  rw [readOrigin?, mark]
  change Numeral.unsigned? 16 origin.hex = _
  rw [Numeral.unsigned?_of_head? unsigned,
    (Digits.read?_eq_some_iff (by omega)).mpr (ObjectFile.denotes_hex origin)]
  simp [Option.filter, origin.isLt]

/-- The argument that spells an origin sets it. -/
theorem take_origin {options : Options} (unset : options.origin? = none) (origin : Word)
    (rest : List Text) :
    options.take (("--origin=0x".toList ++ origin.hex) :: rest) =
      { options with origin? := some origin }.take rest := by
  have form : Argument.ofText ("--origin=0x".toList ++ origin.hex) =
      .long "origin".toList (some ("0x".toList ++ origin.hex)) := by
    have mark : "--origin=0x".toList = "--origin=".toList ++ "0x".toList := by decide
    have name : "origin".toList = ['o', 'r', 'i', 'g', 'i', 'n'] := by decide
    have dashes : "--origin=".toList = '-' :: '-' :: ['o', 'r', 'i', 'g', 'i', 'n', '='] := by
      decide
    rw [mark, dashes, name]
    rfl
  rw [take, form]
  dsimp only
  rw [if_pos rfl, setOrigin, readOrigin?_hex, unset]
  rfl

/-- A letter behind a dash sets its flag, if it is given. -/
theorem take_letter {options set : Options} {text : Text} (letter : Char)
    (form : Argument.ofText text = .short [letter]) (step : options.setLetter letter = .ok set)
    (given : Bool) (rest : List Text) :
    options.take ((if given then [text] else []) ++ rest) =
      (if given then set else options).take rest := by
  cases given with
  | false => rfl
  | true =>
      rw [if_pos rfl, if_pos rfl, List.singleton_append, take, form]
      dsimp only
      rw [List.foldlM_cons, step]
      rfl

/-- The arguments that spell options are taken for those options. -/
theorem take_spell (options : Options) : initial.take options.spell = .ok options := by
  obtain ⟨list, symbols, verbose, writeFiles, origin?, files⟩ := options
  have start (rest : List Text) :
      initial.take ((origin?.map fun origin => "--origin=0x".toList ++ origin.hex).toList ++ rest) =
        { initial with origin? := origin? }.take rest := by
    cases origin? with
    | none => rfl
    | some origin => exact take_origin rfl origin rest
  have mark : Argument.ofText "--".toList = .endMark := by decide
  unfold spell
  rw [start, take_letter 'l' (by decide) rfl list]
  cases list <;>
  · rw [take_letter 's' (by decide) rfl symbols]
    cases symbols <;>
    · rw [take_letter 'v' (by decide) rfl verbose]
      cases verbose <;>
      · rw [take_letter 'w' (by decide) rfl writeFiles, take, mark]
        cases writeFiles <;> rfl

/-- Options with a file are read back from the arguments that spell them. -/
theorem read_spell {options : Options} (given : options.files ≠ []) :
    read options.spell = .ok options := by
  rw [read, take_spell]
  simp [bind, Except.bind, given]
  rfl

end Options

end Msp430
