/-!
# The grammar of command lines

A command line is a list of words. Words with dashes are flags, of which some take a value; the others
name commands or stand in places. Each command has flags and commands or places of its own, and what
is behind its name belongs to it. Behind a lone `--` all words stand in places.
-/

namespace KnowledgeGraph.CommandLine

/-- Why a command line is not carried out. -/
inductive Stop where
  /-- It asks for help. -/
  | help
  /-- It asks for the version. -/
  | version
  /-- It does not fit the grammar. -/
  | refused
  deriving DecidableEq

/-- What a flag does. -/
inductive FlagKind where
  /-- It may be given once. -/
  | switch
  /-- It may be given any number of times. -/
  | counter
  /-- It stops the reading of the line. -/
  | stop (reason : Stop)
  /-- It takes a value that passes a test, and may be given once. -/
  | value (accepts : String → Bool)

/-- A flag. -/
structure Flag where
  /-- The name behind two dashes. -/
  name : String
  /-- The letter behind one dash, if there is one. -/
  letter : Option Char := none
  /-- What the flag does. -/
  kind : FlagKind

/-- A place for a word that is no flag. -/
structure Place where
  /-- Which words may stand there. -/
  accepts : String → Bool
  /-- Whether it may stay empty. -/
  optional : Bool := false
  /-- Whether more than one word may stand there. -/
  endless : Bool := false

/-- What may stand behind a command. -/
inductive Grammar where
  /-- Flags, places and further commands by name. -/
  | mk (flags : List Flag) (places : List Place) (commands : List (String × Grammar))

namespace Grammar

/-- The flags. -/
def flags : Grammar → List Flag
  | mk flags _ _ => flags

/-- The places. -/
def places : Grammar → List Place
  | mk _ places _ => places

/-- The further commands. -/
def commands : Grammar → List (String × Grammar)
  | mk _ _ commands => commands

end Grammar

/-- What was found on a command line. -/
structure Reading where
  /-- The names of the commands, the widest first. -/
  path : List String := []
  /-- The flags by name, in order, and their values. -/
  flags : List (String × String) := []
  /-- The words in places. -/
  words : List String := []

namespace Reading

/-- The reading with a flag before it. -/
def withFlags (flags : List (String × String)) (reading : Reading) : Reading :=
  { reading with flags := flags ++ reading.flags }

/-- The reading with a word before it. -/
def withWord (word : String) (reading : Reading) : Reading :=
  { reading with words := word :: reading.words }

/-- The reading behind a command. -/
def behind (name : String) (reading : Reading) : Reading :=
  { reading with path := name :: reading.path }

/-- Whether a flag is given. -/
def has (reading : Reading) (name : String) : Bool := reading.flags.any fun flag => flag.1 = name

/-- The value of a flag. The one given for the narrowest command counts. -/
def value? (reading : Reading) (name : String) : Option String := reading.flags.reverse.lookup name

end Reading

/-- Flags that a word gives, and one that waits for its value in the next word. -/
structure Given where
  /-- The flags and their values. -/
  flags : List (String × String) := []
  /-- The flag that waits. -/
  waiting : Option Flag := none

/-- A flag that is no longer allowed after those given before. -/
def isSpent (given : List String) (flag : Flag) : Bool :=
  match flag.kind with
  | .counter => false
  | _ => given.contains flag.name

/-- Gives a flag its value. -/
def giveValue (given : List String) (flag : Flag) (value : String) :
    Except Stop (List (String × String)) :=
  match flag.kind with
  | .value accepts =>
    if accepts value && !isSpent given flag then .ok [(flag.name, value)] else .error .refused
  | _ => .error .refused

/-- Takes a flag by its name, with what stands behind an equals sign. -/
def takeName (flags : List Flag) (given : List String) (name : String) (value : Option String) :
    Except Stop Given :=
  match flags.find? fun flag => flag.name = name with
  | none => .error .refused
  | some flag =>
    match flag.kind, value with
    | .value _, some value => do .ok { flags := ← giveValue given flag value }
    | .value _, none => .ok { waiting := some flag }
    | _, some _ => .error .refused
    | .stop reason, none => .error reason
    | _, none => if isSpent given flag then .error .refused else .ok { flags := [(flag.name, "")] }

/-- Takes flags by their letters. The first that takes a value has what is behind it, less an equals
sign, or the next word. -/
def takeLetters (flags : List Flag) (given : List String) : List Char → Except Stop Given
  | [] => .ok {}
  | letter :: letters =>
    match flags.find? fun flag => flag.letter = some letter with
    | none => .error .refused
    | some flag =>
      match flag.kind with
      | .value _ =>
        match letters with
        | [] => .ok { waiting := some flag }
        | '=' :: value => do .ok { flags := ← giveValue given flag (String.ofList value) }
        | value => do .ok { flags := ← giveValue given flag (String.ofList value) }
      | .stop reason => .error reason
      | _ =>
        if isSpent given flag then .error .refused
        else do
          let others ← takeLetters flags (flag.name :: given) letters
          .ok { others with flags := (flag.name, "") :: others.flags }

/-- The name of a flag behind two dashes, and what stands behind an equals sign. -/
def splitName (text : List Char) : String × Option String :=
  match text.span (· ≠ '=') with
  | (name, _ :: value) => (String.ofList name, some (String.ofList value))
  | (name, []) => (String.ofList name, none)

/-- A word of a command line by its form. -/
inductive Form where
  /-- Two dashes alone. -/
  | divider
  /-- A flag by name. -/
  | name (text : List Char)
  /-- Flags by letters. -/
  | letters (text : List Char)
  /-- Any other word. -/
  | plain

/-- The form of a word. A lone dash is no flag. -/
def Form.of (word : String) : Form :=
  match word.toList with
  | ['-', '-'] => .divider
  | '-' :: '-' :: text => .name text
  | ['-'] => .plain
  | '-' :: text => .letters text
  | _ => .plain

/-- Whether help about the command at the end of a path can be given. -/
def helpReaches : Grammar → List String → Bool
  | _, [] => true
  | grammar, word :: words =>
    if word = "help" then !grammar.commands.isEmpty && words.isEmpty
    else match grammar.commands.lookup word with
      | some grammar => helpReaches grammar words
      | none => false

/-- What stands behind a word in a place, if one is left for it. -/
def placesAfter? (places : List Place) (word : String) : Option (List Place) :=
  match places with
  | [] => none
  | place :: places =>
    if !place.accepts word then none
    else if place.endless then some ({ place with optional := true } :: places)
    else some places

/-- Reads the words behind a command. `given` are the names of the flags given for it so far, `places`
those left to fill, and `divided` is set behind the divider. -/
def readWords (grammar : Grammar) (given : List String) (places : List Place) (divided : Bool) :
    List String → Except Stop Reading
  | [] =>
    if grammar.commands.isEmpty && places.all Place.optional then .ok {} else .error .refused
  | word :: rest =>
    let inPlace (_ : Unit) : Except Stop Reading :=
      match placesAfter? places word with
      | some places => do
        .ok ((← readWords grammar given places divided rest).withWord word)
      | none => .error .refused
    let flagged (found : Except Stop Given) : Except Stop Reading :=
      match found with
      | .error stop => .error stop
      | .ok { flags, waiting := none } => do
        let given := flags.map (·.1) ++ given
        .ok ((← readWords grammar given places divided rest).withFlags flags)
      | .ok { flags, waiting := some flag } =>
        match rest with
        | [] => .error .refused
        | value :: rest =>
          match Form.of value with
          | .plain => do
            let flags := flags ++ (← giveValue (flags.map (·.1) ++ given) flag value)
            let given := flags.map (·.1) ++ given
            .ok ((← readWords grammar given places divided rest).withFlags flags)
          | _ => .error .refused
    if divided then inPlace ()
    else match grammar.commands.lookup word with
      | some grammar => do
        .ok ((← readWords grammar [] grammar.places false rest).behind word)
      | none =>
        if word = "help" ∧ !grammar.commands.isEmpty then
          .error (if helpReaches grammar rest then .help else .refused)
        else match Form.of word with
          | .divider => readWords grammar given places true rest
          | .name text =>
            let (name, value) := splitName text
            flagged (takeName grammar.flags given name value)
          | .letters text => flagged (takeLetters grammar.flags given text)
          | .plain => inPlace ()

/-- Reads a command line. -/
def read (grammar : Grammar) (words : List String) : Except Stop Reading :=
  readWords grammar [] grammar.places false words

end KnowledgeGraph.CommandLine
