import SqlRiver.Layout.Clauses

/-!
# Arguments

What the words of a command line and the variables of its environment ask for.
The words are read from left to right. An option starts with `--` and a name, or
with `-` and one or more letters, of which the last may take a value; behind the
word `--` there are no more options. A word of the command line wins over the
variable of the same choice.

Main definitions:

* `Given`: what the words have asked for so far.
* `Halt`: why reading them ends early.
* `readWords`: reads the words.
* `Request`, `requestOf`: what is asked for, all in all.
-/

namespace SqlRiver.Command

/-- What the words of a command line have asked for. -/
structure Given where
  /-- The file to read. -/
  path : Option Text := none
  /-- Keywords in capitals. -/
  uppercase : Bool := false
  /-- The width to wrap at. -/
  width : Option Nat := none
  /-- The data of the query in place of its layout. -/
  json : Bool := false
  /-- A report of what is done. -/
  verbose : Bool := false
deriving DecidableEq, Repr

/-- Why the words are not read to their end. -/
inductive Halt where
  /-- They are not understood. -/
  | usage
  /-- They ask for the version. -/
  | version
  /-- They ask for help. -/
  | help
deriving DecidableEq, Repr

/-! ## Numbers -/

/-- The largest width that can be asked for: 64 bits hold it. -/
def maxNumber : Nat := 18446744073709551615

/-- The number that decimal digits write, if there is at least one of them and
nothing else. -/
def digits? (t : Text) : Option Nat :=
  if t.isEmpty || !t.all Char.isDigit then none
  else
    let n := t.decimalValue
    if n ≤ maxNumber then some n else none

/-- The number that a word writes; a plus sign may stand before it. -/
def number? : Text → Option Nat
  | '+' :: digits => digits? digits
  | digits => digits? digits

/-! ## Single choices -/

namespace Given

/-- Takes a word as the path: there is one path, and it is not empty. -/
def addPath (g : Given) (word : Text) : Except Halt Given :=
  if word.isEmpty || g.path.isSome then
    .error .usage else .ok { g with path := some word }

/-- Takes a word as the width, once. -/
def addWidth (g : Given) (word : Text) : Except Halt Given :=
  match g.width, number? word with
  | none, some n => .ok { g with width := some n }
  | _, _ => .error .usage

/-- Asks for capitals, once. -/
def addUppercase (g : Given) : Except Halt Given :=
  if g.uppercase then .error .usage else .ok { g with uppercase := true }

/-- Asks for the data of the query, once. -/
def addJson (g : Given) : Except Halt Given :=
  if g.json then .error .usage else .ok { g with json := true }

/-- Asks for a report, once. -/
def addVerbose (g : Given) : Except Halt Given :=
  if g.verbose then .error .usage else .ok { g with verbose := true }

end Given

/-! ## Words -/

/-- Is the word an option? A single hyphen is not. -/
def isOption (word : Text) : Bool := word.head? == some '-' && 1 < word.length

/-- What comes of the options in one word. -/
inductive Taken where
  /-- They have been taken. -/
  | all (g : Given)
  /-- The next word is the width. -/
  | wantsWidth (g : Given)

/-- Takes an option with a long name, and the value behind its equals sign. -/
def takeLong (g : Given) (name : Text) (value : Option Text) :
    Except Halt Taken :=
  if name == "width".toList then
    match value with
    | some word => (g.addWidth word).map .all
    | none => .ok (.wantsWidth g)
  else if value.isSome then .error .usage
  else if name == "uppercase".toList then g.addUppercase.map .all
  else if name == "json".toList then g.addJson.map .all
  else if name == "verbose".toList then g.addVerbose.map .all
  else if name == "version".toList then .error .version
  else if name == "help".toList then .error .help
  else .error .usage

/-- Takes the letters of a word as options. -/
def takeLetters (g : Given) : Text → Except Halt Taken
  | [] => .ok (.all g)
  | 'u' :: more =>
    match g.addUppercase with
    | .ok g => takeLetters g more
    | .error halt => .error halt
  | 'v' :: more =>
    match g.addVerbose with
    | .ok g => takeLetters g more
    | .error halt => .error halt
  | 'V' :: _ => .error .version
  | 'h' :: _ => .error .help
  | ['w'] => .ok (.wantsWidth g)
  | 'w' :: '=' :: word => (g.addWidth word).map .all
  | 'w' :: word => (g.addWidth word).map .all
  | _ => .error .usage

/-- Takes the options in one word. -/
def takeOptions (g : Given) : Text → Except Halt Taken
  | '-' :: '-' :: long =>
    let name := long.takeWhile (· != '=')
    takeLong g name (long.drop name.length).tail?
  | '-' :: letters => takeLetters g letters
  | _ => .error .usage

/-- Takes all words as paths. -/
def takePaths (g : Given) : List Text → Except Halt Given
  | [] => .ok g
  | word :: more =>
    match g.addPath word with
    | .ok g => takePaths g more
    | .error halt => .error halt

/-- Reads the words of a command line. -/
def readWords (g : Given) : List Text → Except Halt Given
  | [] => .ok g
  | word :: more =>
    if word == ['-', '-'] then takePaths g more
    else if isOption word then
      match takeOptions g word, more with
      | .error halt, _ => .error halt
      | .ok (.all g), more => readWords g more
      | .ok (.wantsWidth _), [] => .error .usage
      | .ok (.wantsWidth g), value :: more =>
        if isOption value then .error .usage
        else
          match g.addWidth value with
          | .ok g => readWords g more
          | .error halt => .error halt
    else
      match g.addPath word with
      | .ok g => readWords g more
      | .error halt => .error halt

/-! ## Requests -/

/-- What is asked for. -/
structure Request where
  /-- The file to read: none means the standard input. -/
  path : Option Text
  /-- How to lay the query out. -/
  options : Options
  /-- Is the data of the query asked for, in place of its layout? -/
  json : Bool
deriving DecidableEq, Repr

/-- The values of the environment variables that hold choices. -/
structure Variables where
  /-- The value of `SQLFMT_UPPERCASE`. -/
  uppercase : Option Text := none
  /-- The value of `SQLFMT_WIDTH`. -/
  width : Option Text := none
deriving DecidableEq, Repr

/-- The truth value that a variable writes. -/
def flag? (t : Text) : Option Bool :=
  if t == "true".toList then some true
  else if t == "false".toList then some false
  else none

/-- Are capitals asked for, by the words or by the variable? -/
def uppercaseOf (vars : Variables) (g : Given) : Except Halt Bool :=
  if g.uppercase then .ok true
  else
    match vars.uppercase with
    | none => .ok false
    | some value =>
      match flag? value with
      | some b => .ok b
      | none => .error .usage

/-- The width that is asked for, by the words or by the variable. -/
def widthOf (vars : Variables) (g : Given) : Except Halt Nat :=
  match g.width, vars.width with
  | some n, _ => .ok n
  | none, none => .ok ({} : Options).maxWidth
  | none, some value =>
    match number? value with
    | some n => .ok n
    | none => .error .usage

/-- Does a path mean the standard input: a single hyphen, with or without
slashes behind it? -/
def isStandardInput (path : Text) : Bool :=
  path.head? == some '-' && (path.splitWhere (· == '/')).filter
    (fun part => !part.isEmpty && part != ['.']) == [['-']]

/-- What the words and the variables ask for. -/
def requestOf (vars : Variables) (words : List Text) : Except Halt Request := do
  let g ← readWords {} words
  let uppercase ← uppercaseOf vars g
  let width ← widthOf vars g
  let path := g.path.filter fun path => !isStandardInput path
  .ok ⟨path, ⟨if uppercase then .upper else .lower, width⟩, g.json⟩

end SqlRiver.Command
