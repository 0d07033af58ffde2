/-
The arguments of the command line.

Arguments are read from left to right. Flags may stand at either level, before a command or among its
arguments, each once at a level; some are only known before the command. A flag that asks for help or for
the version ends reading at once, and so does the first mistake.
-/
import LineEndings.Path.Basic

namespace LineEndings.Command

/-- What the program is asked to do. -/
inductive Action where
  | resolve (files : List Path)
  | matchPattern (pattern : String) (paths : List String)
  | check (paths : List Path)
  | fix (paths : List Path)
  | showSettings
  | validateSettings
  deriving Repr, DecidableEq

/-- A flag. -/
inductive Flag where
  | verbose
  | noUserFile
  | init
  | force
  | version
  | help
  deriving Repr, DecidableEq

/-- What the arguments say: the flags of all levels, and the action, if one is named. -/
structure Request where
  flags : List Flag
  action? : Option Action
  deriving Repr, DecidableEq

/-- Whether a flag has been given. -/
def Request.has (request : Request) (flag : Flag) : Bool :=
  request.flags.contains flag

/-- Why nothing is to be done. -/
inductive Stop where
  | version
  | help
  | usage
  deriving Repr, DecidableEq

/-! ### Flags -/

/-- A flag by its long name; some are only known before the command. -/
def longFlag? (atTop : Bool) : String → Option Flag
  | "--verbose" => some .verbose
  | "--no-user-config" => some .noUserFile
  | "--help" => some .help
  | "--init" => if atTop then some .init else none
  | "--force" => if atTop then some .force else none
  | "--version" => if atTop then some .version else none
  | _ => none

/-- A flag by its letter. -/
def shortFlag? (atTop : Bool) : Char → Option Flag
  | 'v' => some .verbose
  | 'h' => some .help
  | 'V' => if atTop then some .version else none
  | _ => none

/-- One more flag of a level. -/
def raise (flags : List Flag) : Option Flag → Except Stop (List Flag)
  | none => .error .usage
  | some .version => .error .version
  | some .help => .error .help
  | some flag => if flags.contains flag then .error .usage else .ok (flags ++ [flag])

/-- The flags of a level with those of an argument, if the argument stands for flags at all. -/
def readFlags? (atTop : Bool) (flags : List Flag) (arg : String) :
    Option (Except Stop (List Flag)) :=
  match arg.toList with
  | '-' :: '-' :: _ => some (raise flags (longFlag? atTop arg))
  | '-' :: c :: letters =>
    some ((c :: letters).foldlM (fun flags c => raise flags (shortFlag? atTop c)) flags)
  | _ => none

/-! ### Arguments of a command -/

/-- The flags and the other arguments of a command, each of which `admits` must hold of. What follows a
double dash is no flag. -/
def gather (admits : String → Bool) (flags : List Flag) :
    List String → Except Stop (List Flag × List String)
  | [] => .ok (flags, [])
  | arg :: args =>
    if arg = "--" then if args.all admits then .ok (flags, args) else .error .usage
    else
      match readFlags? false flags arg with
      | some result => do gather admits (← result) args
      | none =>
        if admits arg then do
          let (flags, others) ← gather admits flags args
          .ok (flags, arg :: others)
        else .error .usage

/-- A command with its arguments, as an action. -/
def readAction (admits : String → Bool) (action? : List String → Option Action)
    (args : List String) : Except Stop (List Flag × Action) := do
  let (flags, others) ← gather admits [] args
  match action? others with
  | none => .error .usage
  | some action => .ok (flags, action)

/-- The commands. -/
def commandNames : List String :=
  ["resolve", "match", "check", "fix", "config", "help"]

/-- The commands about settings. -/
def settingsCommandNames : List String :=
  ["show", "validate", "help"]

/-- What asking for help on commands comes to: each name must be a command of the one before it. -/
def helpOn (known : List String) : List String → Stop
  | [] => .help
  | name :: names =>
    if known.contains name then helpOn (if name = "config" then settingsCommandNames else []) names
    else .usage

/-- The command about settings, which has commands of its own. -/
def readSettingsCommand (flags : List Flag) : List String → Except Stop (List Flag × Action)
  | [] => .error .usage
  | arg :: args =>
    match readFlags? false flags arg with
    | some result => do readSettingsCommand (← result) args
    | none => do
      let action : Action ← match arg with
        | "show" => .ok .showSettings
        | "validate" => .ok .validateSettings
        | "help" => .error (helpOn settingsCommandNames args)
        | _ => .error .usage
      let (more, action) ← readAction (fun _ => false) (fun _ => some action) args
      .ok (flags ++ more, action)

/-- A command by its name. -/
def readCommand (name : String) (args : List String) : Except Stop (List Flag × Action) :=
  let isPath (arg : String) : Bool := !arg.isEmpty
  let paths (args : List String) : List Path := args.map Path.mk
  match name with
  | "resolve" =>
    readAction isPath (fun args => if args.isEmpty then none else some (.resolve (paths args))) args
  | "match" =>
    readAction (fun _ => true)
      (fun
        | pattern :: path :: more => some (.matchPattern pattern (path :: more))
        | _ => none)
      args
  | "check" => readAction isPath (fun args => some (.check (paths args))) args
  | "fix" => readAction isPath (fun args => some (.fix (paths args))) args
  | "config" => readSettingsCommand [] args
  | "help" => .error (helpOn commandNames args)
  | _ => .error .usage

/-! ### All arguments -/

/-- A request must ask for something, and a file can only be overwritten where one is made. -/
def checked (request : Request) : Except Stop Request :=
  if request.flags.isEmpty && request.action?.isNone then .error .usage
  else if request.has .force && !request.has .init then .error .usage
  else .ok request

/-- Read the arguments from before the command on. -/
def readAll (flags : List Flag) : List String → Except Stop Request
  | [] => checked ⟨flags, none⟩
  | arg :: args =>
    if arg = "--" then if args.isEmpty then checked ⟨flags, none⟩ else .error .usage
    else
      match readFlags? true flags arg with
      | some result => do readAll (← result) args
      | none => do
        let (more, action) ← readCommand arg args
        checked ⟨flags ++ more, some action⟩

/-- Read the arguments of the program. -/
def readArguments (args : List String) : Except Stop Request :=
  readAll [] args

end LineEndings.Command
