import ConfigDb.Api.Import
import ConfigDb.Api.Session
import ConfigDb.Service.Configuration
import Mathlib.Data.List.DropRight

/-!
# The shell

The shell reads a command from a line, and performs it with an operation of the client library.  The
words of a line are found with loops on positions, which may be `npos`: a line without a space is
given to `pclient::key` with that position, and the additions in it overflow.  White space of any
kind is removed from the ends of a line, but only spaces separate words.

## Main definitions

* `Shell.trim`, `Shell.command`, `Shell.key`, `Shell.interpret` : a line is parsed, with every
  access checked.
* `Shell.Typed`, `Shell.Spells` : the grammar of what is typed.
* `Shell.run` : the loop over what is typed, over the network.
* `Shell.execute` : what is asked for, on the store itself.

## Main results

* `shell_by_grammar` : whatever is typed is parsed by the grammar.
* `shell_transparent` : a session of the shell is the commands it spells.
-/

namespace ConfigDb

open Api

namespace Shell

/-! ### Commands -/

/-- The files that can be opened, with their lines. -/
abbrev Files := Bytes → Option (List Bytes)

/-- What a line has the shell perform. -/
inductive Command
  | ls (key : Bytes)
  | get (key : Bytes)
  | set (key value : Bytes)
  | mv (key dest : Bytes)
  | rm (key : Bytes)
  | importFile (file : Bytes)
  deriving DecidableEq

/-- What the shell makes of a line; the flag says that the line is an import. -/
inductive Line
  | nothing
  | exit
  | help
  | unknown (command : Bytes)
  | unparsed (file : Bool) (line : Bytes)
  | perform (c : Command)
  deriving DecidableEq

/-- The operation of a command. -/
def Command.operation (files : Files) : Command → Operation
  | .ls key => .list key
  | .get key => .get key
  | .set key value => .set ⟨key, value, {}⟩
  | .mv key dest => .move ⟨key, dest, {}⟩
  | .rm key => .remove key
  | .importFile file => .importFile (files file)

/-- The arguments of a command. -/
def Command.words : Command → List Bytes
  | .ls key | .get key | .rm key | .importFile key => [key]
  | .set key value | .mv key value => [key, value]

/-! ### The parser -/

/-- `std::isspace`. -/
def isspace (b : UInt8) : Bool := b == 32 || (9 ≤ b && b ≤ 13)

/-- `pclient::trim`, which leaves a line of white space alone. -/
def trim (line : Bytes) : Bytes :=
  if line.all isspace then line else (line.dropWhile isspace).rdropWhile isspace

/-- `pclient::command( line )`. -/
def command (line : Bytes) : Bytes × ℕ :=
  let idx := findSpace line 0
  if idx = npos then (line, idx) else (substr line 0 idx, idx)

/-- `pclient::key( line, begin )` : its loop is the one of `BaseConnection::import`, and leaves
`idx` at the space after `begin`. -/
def key (fuel : ℕ) (line : Bytes) (start : ℕ) : Option (Bytes × ℕ) := do
  let start ← skipSpaces line fuel start (findSpace line (posAdd start 1))
  let idx := findSpace line (posAdd start 1)
  return (← substrAt line (posAdd start 1) (posSub (posSub idx start) 1), idx)

/-- The commands of one argument: what follows it is ignored. -/
def processKey (perform : Bytes → Command) (file : Bool) (fuel : ℕ) (line : Bytes) (idx : ℕ) :
    Option Line := do
  let (key, stop) ← key fuel line idx
  -- so it is when `idx` is `npos`
  if stop ≤ idx then return .unparsed file line
  return .perform (perform key)

/-- The commands of two arguments: the second one is the rest of the line. -/
def processValue (perform : Bytes → Bytes → Command) (fuel : ℕ) (line : Bytes) (idx : ℕ) :
    Option Line := do
  let (key, stop) ← key fuel line idx
  if stop = npos then return .unparsed false line
  let stop ← skipSpaces line fuel stop (findSpace line (posAdd stop 1))
  return .perform (perform key (← substrAt line (posAdd stop 1) npos))

/-- `pclient::processList`. -/
def processList : ℕ → Bytes → ℕ → Option Line := processKey .ls false

/-- `pclient::processGet`. -/
def processGet : ℕ → Bytes → ℕ → Option Line := processKey .get false

/-- `pclient::processSet`. -/
def processSet : ℕ → Bytes → ℕ → Option Line := processValue .set

/-- `pclient::processMove`. -/
def processMove : ℕ → Bytes → ℕ → Option Line := processValue .mv

/-- `pclient::processRemove`. -/
def processRemove : ℕ → Bytes → ℕ → Option Line := processKey .rm false

/-- `pclient::processImport`. -/
def processImport : ℕ → Bytes → ℕ → Option Line := processKey .importFile true

/-- What `client::run` makes of a line that has been trimmed. -/
def interpret (fuel : ℕ) (line : Bytes) : Option Line :=
  if line = text "exit" ∨ line = text "quit" then some .exit
  else if line = text "help" then some .help
  else if line = [] then some .nothing
  else
    let (command, idx) := command line
    if command = text "ls" then processList fuel line idx
    else if command = text "get" then processGet fuel line idx
    else if command = text "set" then processSet fuel line idx
    else if command = text "mv" then processMove fuel line idx
    else if command = text "rm" then processRemove fuel line idx
    else if command = text "import" then processImport fuel line idx
    else some (.unknown command)

/-- What `client::run` makes of a line. -/
def parse (fuel : ℕ) (line : Bytes) : Option Line := interpret fuel (trim line)

/-! ### The loop -/

/-- What a command prints of what its operation returns. -/
def Command.printed : Command → Api.Answer → Bytes
  | .ls key, .nodes none | .ls key, .nodes (some []) =>
    text "Error retrieving path " ++ key ++ text "\n"
  | .ls _, .nodes (some names) => names.flatMap fun v => v ++ text "\n"
  | .get key, .value none => text "Error retrieving value for key " ++ key ++ text "\n"
  | .get _, .value (some v) => v ++ text "\n"
  | .set key _, .bool b =>
    (if b then text "Set key " else text "Error setting key ") ++ key ++ text "\n"
  | .mv key dest, .bool b =>
    (if b then text "Moved key " else text "Error moving key ") ++ key ++ text " to " ++ dest ++
      text "\n"
  | .rm key, .bool b =>
    (if b then text "Removed key " else text "Error removing key ") ++ key ++ text "\n"
  | .importFile file, .imported (b, size, count) =>
    (if b then text "Imported (" else text "Error importing (") ++ toString size.toNat ++
      text "/" ++ toString count.toNat ++ text ") keys from file " ++ file ++ text "\n"
  | _, _ => []

/-- `pclient::help`. -/
def helpText : Bytes :=
  text "\x1b[1mAvailable commands\x1b[0m\n" ++
  text "  \x1b[1mls\x1b[0m \x1b[3m<path>\x1b[0m - To list child node names.  Eg. [ls /]\n" ++
  text "  \x1b[1mget\x1b[0m \x1b[3m<key>\x1b[0m - To get configured value for key.  " ++
    text "Eg. [get /key1/key2/key3]\n" ++
  text "  \x1b[1mset\x1b[0m \x1b[3m<key> <value>\x1b[0m - To set value for key.  " ++
    text "Eg. [set /key1/key2/key3 Some long value. Note no surrounding quotes]\n" ++
  text "  \x1b[1mmv\x1b[0m \x1b[3m<key> <destination>\x1b[0m - To move value for key to " ++
    text "destination.  Eg. [mv /key1/key2/key3 /key/key2/key3]\n" ++
  text "  \x1b[1mrm\x1b[0m \x1b[3m<key>\x1b[0m - To remove configured key.  " ++
    text "Eg. [rm /key1/key2/key3]\n" ++
  text "  \x1b[1mimport\x1b[0m \x1b[3m<path to file>\x1b[0m - To bulk import " ++
    text "\x1b[3mkey-values\x1b[0m from file.  Eg. [import /tmp/kvps.txt]\n"

/-- What a line prints that does without an operation. -/
def Line.printed : Line → Bytes
  | .exit => text "Bye\n"
  | .help => helpText
  | .unknown command => text "Unknown command " ++ command ++ text "\n"
  | .unparsed file line =>
    (if file then text "Cannot parse file to import from " else text "Cannot parse key from ") ++
      line ++ text "\n"
  | _ => []

/-- How a session ends: there is no more input, it is left, or an operation does not return. -/
inductive Stop
  | eof
  | left
  | failed (e : End)
  deriving DecidableEq

/-- The loop of `client::run` over the lines that are typed, each with the files as they are then:
what is printed, how the session ends, and the store afterwards. -/
def run (fb : Flatbuffers) (logged : Bool) (env : Env) (cfg : Config) :
    List (Bytes × Files) → Db → Bytes × Stop × Db
  | [], s => ([], .eof, s)
  | (buf, files) :: bufs, s =>
    match parse buf.length buf with
    | none => ([], .failed .throws, s)
    | some .exit => (Line.exit.printed, .left, s)
    | some (.perform c) =>
      match (c.operation files).remote fb logged env cfg s with
      | (s, .returns a) =>
        (c.printed a ++ (run fb logged env cfg bufs s).1, (run fb logged env cfg bufs s).2)
      | (s, e) => ([], .failed e, s)
    | some l => (l.printed ++ (run fb logged env cfg bufs s).1, (run fb logged env cfg bufs s).2)

/-- What the lines have to be performed, on the store itself. -/
def execute (env : Env) (cfg : Config) : List (Line × Files) → Db → Bytes × Stop × Db
  | [], s => ([], .eof, s)
  | (.exit, _) :: _, s => (Line.exit.printed, .left, s)
  | (.perform c, files) :: lines, s =>
    let r := (c.operation files).direct env cfg s
    (c.printed r.2 ++ (execute env cfg lines r.1).1, (execute env cfg lines r.1).2)
  | (l, _) :: lines, s => (l.printed ++ (execute env cfg lines s).1, (execute env cfg lines s).2)

/-- The store after a line. -/
def Line.next (env : Env) (cfg : Config) (s : Db) : Line × Files → Db
  | (.perform c, files) => ((c.operation files).direct env cfg s).1
  | _ => s

/-- The messages of a line fit. -/
def Line.Fits (fb : Flatbuffers) (env : Env) (cfg : Config) (s : Db) (l : Line × Files) : Prop :=
  ∀ c, l.1 = .perform c → (c.operation l.2).Fits fb env cfg s

/-! ### What is to be read -/

/-- A line without the white space at its ends, if it has anything else. -/
inductive Typed : Bytes → Bytes → Prop
  | blank {line : Bytes} (h : ∀ b ∈ line, isspace b) : Typed line line
  | tidy {pre line post : Bytes} (hpre : ∀ b ∈ pre, isspace b) (hpost : ∀ b ∈ post, isspace b)
      (hhead : ∃ b ∈ line.head?, ¬ isspace b) (hlast : ∃ b ∈ line.getLast?, ¬ isspace b) :
      Typed (pre ++ line ++ post) line

/-- The first word of a line; a line that starts with a space has an empty one. -/
def Word (line word : Bytes) : Prop := (line = word ∧ 32 ∉ word) ∨ ∃ args, Fields line word args

/-- The commands of one argument, with what they have the shell perform. -/
inductive Takes : Bytes → Bool → (Bytes → Command) → Prop
  | ls : Takes (text "ls") false .ls
  | get : Takes (text "get") false .get
  | rm : Takes (text "rm") false .rm
  | importFile : Takes (text "import") true .importFile

/-- The commands of two arguments, with what they have the shell perform. -/
inductive TakesTwo : Bytes → (Bytes → Bytes → Command) → Prop
  | set : TakesTwo (text "set") .set
  | mv : TakesTwo (text "mv") .mv

/-- The lines that are no commands with arguments. -/
def alone : List Bytes := [[], text "exit", text "quit", text "help"]

/-- The words that commands begin with. -/
def commands : List Bytes :=
  [text "ls", text "get", text "set", text "mv", text "rm", text "import"]

/-- The grammar of a line. -/
inductive Spells : Bytes → Line → Prop
  | nothing : Spells [] .nothing
  | exit : Spells (text "exit") .exit
  | quit : Spells (text "quit") .exit
  | help : Spells (text "help") .help
  | one {line name args key : Bytes} {file : Bool} {perform : Bytes → Command}
      (hname : Takes name file perform) (hline : Fields line name args) (hargs : Word args key) :
      Spells line (.perform (perform key))
  | two {line name args key value : Bytes} {perform : Bytes → Bytes → Command}
      (hname : TakesTwo name perform) (hline : Fields line name args)
      (hargs : Fields args key value) : Spells line (.perform (perform key value))
  | oneShort {name : Bytes} {file : Bool} {perform : Bytes → Command}
      (hname : Takes name file perform) : Spells name (.unparsed file name)
  | twoShort {line name : Bytes} {perform : Bytes → Bytes → Command}
      (hname : TakesTwo name perform)
      (hline : line = name ∨ ∃ args, Fields line name args ∧ 32 ∉ args) :
      Spells line (.unparsed false line)
  | unknown {line word : Bytes} (hline : line ∉ alone) (hword : Word line word)
      (hne : word ∉ commands) : Spells line (.unknown word)

section

variable {line name args word value : Bytes} {l : Line}

/-! ### The fields of a line -/

theorem fields_append (h : Fields line name args) :
    ∃ n, line = name ++ 32 :: (List.replicate n 32 ++ args) := by
  obtain ⟨n, hline, -, -⟩ := h
  refine ⟨n, ?_⟩
  rw [hline, List.replicate_succ, List.append_assoc, List.cons_append]

theorem fields_mem (h : Fields line name args) : 32 ∈ line := by
  obtain ⟨n, hline⟩ := fields_append h
  simp [hline]

theorem exists_fields (h : 32 ∈ line) : ∃ name args, Fields line name args :=
  ⟨_, _, (fields_iff h).2 ⟨rfl, rfl⟩⟩

theorem exists_word (line : Bytes) : ∃ word, Word line word := by
  by_cases h : 32 ∈ line
  · obtain ⟨name, args, hline⟩ := exists_fields h
    exact ⟨name, .inr ⟨args, hline⟩⟩
  · exact ⟨line, .inl ⟨rfl, h⟩⟩

/-! ### The steps of the parser -/

theorem command_of_fields (hl : line.length < npos) (h : Fields line name args) :
    command line = (name, name.length) := by
  obtain ⟨n, hline⟩ := fields_append h
  obtain ⟨-, -, hname, -⟩ := h
  have hlen : name.length ≤ line.length := by simp [hline]
  have hidx : findSpace line 0 = name.length := by
    rw [findSpace_of_append (by rw [List.drop_zero, hline]) hname, Nat.zero_add]
  have hsub : substr line 0 name.length = name := by
    rw [substr_eq_take, List.drop_zero, hline, List.take_left]
  have hne : ¬ name.length = npos := by omega
  simp only [command, hidx, if_neg hne, hsub]

theorem command_of_notMem (h : 32 ∉ line) : command line = (line, npos) := by
  have hidx : findSpace line 0 = npos := findSpace_of_notMem h
  simp only [command, hidx, if_true]

theorem key_of_fields (hl : line.length < npos) (h : Fields line name args) {fuel : ℕ}
    (hf : line.length ≤ fuel) :
    ∃ pre, line = pre ++ args ∧ name.length < pre.length ∧ key fuel line name.length = (do
      return (← substrAt line pre.length
        (posSub (posSub (findSpace line pre.length) (pre.length - 1)) 1),
          findSpace line pre.length)) := by
  obtain ⟨n, hline⟩ := fields_append h
  obtain ⟨-, -, -, hargs⟩ := h
  have hlen : line.length = name.length + (n + args.length + 1) := by simp [hline]
  have htake : ((List.replicate n 32 ++ args).takeWhile (· == 32)).length = n := by
    rw [List.takeWhile_append_of_pos (by simp), takeWhile_of_head hargs]
    simp
  have hskip := skipSpaces_eq hl fuel hline (by simp; omega)
  rw [htake] at hskip
  refine ⟨name ++ 32 :: List.replicate n 32, by simp [hline], by simp, ?_⟩
  have hpre : (name ++ 32 :: List.replicate n 32).length = name.length + n + 1 := by simp; omega
  rw [key, posAdd_one (show name.length < npos by omega), hskip, hpre, Nat.add_sub_cancel,
    Option.bind_eq_bind, Option.bind_some, posAdd_one (by omega)]

theorem key_last (hl : line.length < npos) (h : Fields line name args) (hargs : 32 ∉ args)
    {fuel : ℕ} (hf : line.length ≤ fuel) : key fuel line name.length = some (args, npos) := by
  obtain ⟨pre, hline, hpre, hkey⟩ := key_of_fields hl h hf
  have hd : line.drop pre.length = args := by rw [hline, List.drop_left]
  have hlen : line.length = pre.length + args.length := by simp [hline]
  have hidx : findSpace line pre.length = npos := findSpace_of_notMem (by rwa [hd])
  have hwhole : substr line pre.length (npos - (pre.length - 1) - 1) = args := by
    rw [substr_eq_take, hd]
    exact List.take_of_length_le (by omega)
  rw [hkey, hidx, posSub_posSub_one (by omega) le_rfl, substrAt_of_le (by omega), hwhole]
  rfl

/-- A word that another one follows, and the loop over the spaces in between. -/
theorem key_more (hl : line.length < npos) (h : Fields line name args)
    (hargs : Fields args word value) {fuel : ℕ} (hf : line.length ≤ fuel) :
    ∃ stop, name.length < stop ∧ stop < npos ∧ key fuel line name.length = some (word, stop) ∧
      ∃ stop', skipSpaces line fuel stop (findSpace line (posAdd stop 1)) = some stop' ∧
        substrAt line (posAdd stop' 1) npos = some value := by
  obtain ⟨pre, hline, hpre, hkey⟩ := key_of_fields hl h hf
  obtain ⟨n, hmore⟩ := fields_append hargs
  obtain ⟨-, -, hword, hvalue⟩ := hargs
  have hd : line.drop pre.length = word ++ 32 :: (List.replicate n 32 ++ value) := by
    rw [hline, List.drop_left, hmore]
  have hlen : line.length = pre.length + (word.length + (n + value.length + 1)) := by
    simp [hline, hmore]
  have hidx : findSpace line pre.length = pre.length + word.length := findSpace_of_append hd hword
  have hsub : pre.length + word.length - (pre.length - 1) - 1 = word.length := by omega
  have hfirst : substr line pre.length word.length = word := by
    rw [substr_eq_take, hd, List.take_left]
  refine ⟨pre.length + word.length, by omega, by omega, ?_, ?_⟩
  · rw [hkey, hidx, posSub_posSub_one (by omega) (by omega), hsub, substrAt_of_le (by omega),
      hfirst]
    rfl
  · -- the rest of the line is found from the end of the word
    have hstop : line = (pre ++ word) ++ 32 :: (List.replicate n 32 ++ value) := by
      rw [hline, hmore, List.append_assoc]
    have htake : ((List.replicate n 32 ++ value).takeWhile (· == 32)).length = n := by
      rw [List.takeWhile_append_of_pos (by simp), takeWhile_of_head hvalue]
      simp
    have hskip := skipSpaces_eq hl fuel hstop (by simp; omega)
    rw [htake, List.length_append] at hskip
    have hrest : line.drop (pre.length + word.length + n + 1) = value := by
      have hsplit : line = (pre ++ word ++ 32 :: List.replicate n 32) ++ value := by simp [hstop]
      rw [hsplit]
      refine List.drop_left' ?_
      simp
      omega
    refine ⟨pre.length + word.length + n, ?_, ?_⟩
    · rw [posAdd_one (by omega), hskip]
    · rw [posAdd_one (by omega), substrAt_of_le (by omega), substr_eq_take, hrest,
        List.take_of_length_le (by omega)]

/-- A line that is one word is given to `pclient::key` with the position `npos`, and is its own
key. -/
theorem key_npos (hl : line.length < npos) (h : 32 ∉ line) (fuel : ℕ) :
    key (fuel + 1) line npos = some (line, npos) := by
  have hzero : posAdd npos 1 = 0 := rfl
  have hall : posSub (posSub npos npos) 1 = npos := rfl
  have hidx : findSpace line 0 = npos := findSpace_of_notMem h
  have hwhole : substr line 0 npos = line := by
    rw [substr_eq_take, List.drop_zero, List.take_of_length_le (by omega)]
  rw [key, hzero, hidx, skipSpaces, if_neg (fun h => h rfl), Option.bind_eq_bind, Option.bind_some]
  dsimp only
  rw [hzero, hidx, hall, substrAt_of_le (Nat.zero_le _), hwhole]
  rfl

/-! ### The commands -/

theorem processKey_one (hl : line.length < npos) (hline : Fields line name args)
    (hargs : Word args word) {fuel : ℕ} (hf : line.length ≤ fuel) (perform : Bytes → Command)
    (file : Bool) :
    processKey perform file fuel line name.length = some (.perform (perform word)) := by
  have hlt : name.length < npos := by
    obtain ⟨n, h⟩ := fields_append hline
    have hlen : name.length ≤ line.length := by simp [h]
    omega
  rcases hargs with ⟨rfl, hword⟩ | ⟨rest, hrest⟩
  · have hkey := key_last hl hline hword hf
    have hstop : ¬ npos ≤ name.length := by omega
    rw [processKey, hkey, Option.bind_eq_bind, Option.bind_some]
    exact if_neg hstop
  · obtain ⟨stop, hstart, -, hkey, -⟩ := key_more hl hline hrest hf
    have hstop : ¬ stop ≤ name.length := by omega
    rw [processKey, hkey, Option.bind_eq_bind, Option.bind_some]
    exact if_neg hstop

theorem processKey_short (hl : line.length < npos) (h : 32 ∉ line) (perform : Bytes → Command)
    (file : Bool) (fuel : ℕ) :
    processKey perform file (fuel + 1) line npos = some (.unparsed file line) := by
  rw [processKey, key_npos hl h fuel]
  rfl

theorem processValue_two (hl : line.length < npos) (hline : Fields line name args)
    (hargs : Fields args word value) {fuel : ℕ} (hf : line.length ≤ fuel)
    (perform : Bytes → Bytes → Command) :
    processValue perform fuel line name.length = some (.perform (perform word value)) := by
  obtain ⟨stop, -, hstop, hkey, stop', hskip, hvalue⟩ := key_more hl hline hargs hf
  have hne : ¬ stop = npos := by omega
  rw [processValue, hkey, Option.bind_eq_bind, Option.bind_some]
  dsimp only
  rw [if_neg hne, hskip, Option.bind_eq_bind, Option.bind_some, hvalue]
  rfl

theorem processValue_short (hl : line.length < npos) (hline : Fields line name args)
    (hargs : 32 ∉ args) {fuel : ℕ} (hf : line.length ≤ fuel) (perform : Bytes → Bytes → Command) :
    processValue perform fuel line name.length = some (.unparsed false line) := by
  rw [processValue, key_last hl hline hargs hf]
  rfl

theorem processValue_npos (hl : line.length < npos) (h : 32 ∉ line)
    (perform : Bytes → Bytes → Command) (fuel : ℕ) :
    processValue perform (fuel + 1) line npos = some (.unparsed false line) := by
  rw [processValue, key_npos hl h fuel]
  rfl

/-! ### The dispatch -/

theorem interpret_of_notMem (h : line ∉ alone) (fuel : ℕ) : interpret fuel line =
    let (command, idx) := command line
    if command = text "ls" then processList fuel line idx
    else if command = text "get" then processGet fuel line idx
    else if command = text "set" then processSet fuel line idx
    else if command = text "mv" then processMove fuel line idx
    else if command = text "rm" then processRemove fuel line idx
    else if command = text "import" then processImport fuel line idx
    else some (.unknown command) := by
  simp only [alone, List.mem_cons, List.not_mem_nil, or_false, not_or] at h
  obtain ⟨hnil, hexit, hquit, hhelp⟩ := h
  rw [interpret, if_neg (not_or.2 ⟨hexit, hquit⟩), if_neg hhelp, if_neg hnil]

theorem notMem_alone (h : 32 ∈ line) : line ∉ alone := by
  have hspaces : ∀ a ∈ alone, 32 ∉ a := by decide
  exact fun hmem => hspaces line hmem h

theorem interpret_takes {file : Bool} {perform : Bytes → Command} (hname : Takes name file perform)
    (h : line ∉ alone) {idx : ℕ} (hcommand : command line = (name, idx)) (fuel : ℕ) :
    interpret fuel line = processKey perform file fuel line idx := by
  rw [interpret_of_notMem h, hcommand]
  cases hname <;> rfl

theorem interpret_takesTwo {perform : Bytes → Bytes → Command} (hname : TakesTwo name perform)
    (h : line ∉ alone) {idx : ℕ} (hcommand : command line = (name, idx)) (fuel : ℕ) :
    interpret fuel line = processValue perform fuel line idx := by
  rw [interpret_of_notMem h, hcommand]
  cases hname <;> rfl

theorem interpret_unknown (hne : word ∉ commands) (h : line ∉ alone) {idx : ℕ}
    (hcommand : command line = (word, idx)) (fuel : ℕ) :
    interpret fuel line = some (.unknown word) := by
  simp only [commands, List.mem_cons, List.not_mem_nil, or_false, not_or] at hne
  obtain ⟨hls, hget, hset, hmv, hrm, himport⟩ := hne
  rw [interpret_of_notMem h, hcommand]
  dsimp only
  rw [if_neg hls, if_neg hget, if_neg hset, if_neg hmv, if_neg hrm, if_neg himport]

theorem Takes.spaceless {file : Bool} {perform : Bytes → Command} (h : Takes name file perform) :
    name ∉ alone ∧ 32 ∉ name ∧ name ∈ commands := by
  cases h <;> decide

theorem TakesTwo.spaceless {perform : Bytes → Bytes → Command} (h : TakesTwo name perform) :
    name ∉ alone ∧ 32 ∉ name ∧ name ∈ commands := by
  cases h <;> decide

theorem takes_of_mem (h : word ∈ commands) :
    (∃ file perform, Takes word file perform) ∨ ∃ perform, TakesTwo word perform := by
  simp only [commands, List.mem_cons, List.not_mem_nil, or_false] at h
  rcases h with rfl | rfl | rfl | rfl | rfl | rfl
  · exact .inl ⟨_, _, .ls⟩
  · exact .inl ⟨_, _, .get⟩
  · exact .inr ⟨_, .set⟩
  · exact .inr ⟨_, .mv⟩
  · exact .inl ⟨_, _, .rm⟩
  · exact .inl ⟨_, _, .importFile⟩

theorem exists_succ (hname : name ∈ commands) {fuel : ℕ} (hf : name.length ≤ fuel) :
    ∃ n, fuel = n + 1 := by
  have hpos : ∀ name ∈ commands, 0 < name.length := by decide
  have hname := hpos name hname
  exact ⟨fuel - 1, by omega⟩

/-- **What a line spells is what it is parsed to.** -/
theorem interpret_of_spells (hl : line.length < npos) (h : Spells line l) {fuel : ℕ}
    (hf : line.length ≤ fuel) : interpret fuel line = some l := by
  cases h with
  | nothing => rfl
  | exit => rfl
  | quit => rfl
  | help => rfl
  | one hname hline hargs =>
    rw [interpret_takes hname (notMem_alone (fields_mem hline)) (command_of_fields hl hline)]
    exact processKey_one hl hline hargs hf _ _
  | two hname hline hargs =>
    rw [interpret_takesTwo hname (notMem_alone (fields_mem hline)) (command_of_fields hl hline)]
    exact processValue_two hl hline hargs hf _
  | oneShort hname =>
    -- the position is `npos`, from which the search goes back to the beginning
    obtain ⟨halone, hspace, hmem⟩ := hname.spaceless
    obtain ⟨fuel, rfl⟩ := exists_succ hmem hf
    rw [interpret_takes hname halone (command_of_notMem hspace)]
    exact processKey_short hl hspace _ _ fuel
  | twoShort hname hline =>
    obtain ⟨halone, hspace, hmem⟩ := hname.spaceless
    rcases hline with rfl | ⟨args, hline, hargs⟩
    · obtain ⟨fuel, rfl⟩ := exists_succ hmem hf
      rw [interpret_takesTwo hname halone (command_of_notMem hspace)]
      exact processValue_npos hl hspace _ fuel
    · rw [interpret_takesTwo hname (notMem_alone (fields_mem hline)) (command_of_fields hl hline)]
      exact processValue_short hl hline hargs hf _
  | unknown halone hword hne =>
    rcases hword with ⟨rfl, hspace⟩ | ⟨args, hline⟩
    · exact interpret_unknown hne halone (command_of_notMem hspace) fuel
    · exact interpret_unknown hne halone (command_of_fields hl hline) fuel

/-- **Every line spells something.** -/
theorem exists_spells (line : Bytes) : ∃ l, Spells line l := by
  by_cases halone : line ∈ alone
  · simp only [alone, List.mem_cons, List.not_mem_nil, or_false] at halone
    rcases halone with rfl | rfl | rfl | rfl
    · exact ⟨_, .nothing⟩
    · exact ⟨_, .exit⟩
    · exact ⟨_, .quit⟩
    · exact ⟨_, .help⟩
  · -- the first word decides how many words are wanted after it
    obtain ⟨name, hname⟩ := exists_word line
    by_cases hmem : name ∈ commands
    · rcases takes_of_mem hmem with ⟨file, perform, htakes⟩ | ⟨perform, htakes⟩
      · rcases hname with ⟨rfl, -⟩ | ⟨args, hline⟩
        · exact ⟨_, .oneShort htakes⟩
        · obtain ⟨key, hkey⟩ := exists_word args
          exact ⟨_, .one htakes hline hkey⟩
      · rcases hname with ⟨rfl, -⟩ | ⟨args, hline⟩
        · exact ⟨_, .twoShort htakes (.inl rfl)⟩
        · by_cases hargs : 32 ∈ args
          · obtain ⟨key, value, hvalue⟩ := exists_fields hargs
            exact ⟨_, .two htakes hline hvalue⟩
          · exact ⟨_, .twoShort htakes (.inr ⟨args, hline, hargs⟩)⟩
    · exact ⟨_, .unknown halone hname hmem⟩

theorem interpret_iff (hl : line.length < npos) {fuel : ℕ} (hf : line.length ≤ fuel) :
    interpret fuel line = some l ↔ Spells line l := by
  constructor
  · intro h
    obtain ⟨l', hl'⟩ := exists_spells line
    have heq : some l' = some l := (interpret_of_spells hl hl' hf).symm.trans h
    obtain rfl := Option.some.inj heq
    exact hl'
  · intro h
    exact interpret_of_spells hl h hf

/-! ### White space -/

/-- A line that begins with a character that is no space is not shortened there. -/
theorem dropWhile_isspace (h : ∃ b ∈ line.head?, ¬ isspace b) (post : Bytes) :
    (line ++ post).dropWhile isspace = line ++ post := by
  obtain ⟨b, hb, hspace⟩ := h
  cases line with
  | nil => cases hb
  | cons b' line =>
    obtain rfl := Option.some.inj hb
    rw [List.cons_append, List.dropWhile_cons_of_neg hspace]

/-- **`pclient::trim`** removes the white space at the ends of a line. -/
theorem typed_trim (buf : Bytes) : Typed buf (trim buf) := by
  by_cases hall : buf.all isspace
  · rw [trim, if_pos hall]
    exact .blank (List.all_eq_true.1 hall)
  · rw [trim, if_neg hall]
    have hne : buf.dropWhile isspace ≠ [] := by
      rw [Ne, List.dropWhile_eq_nil_iff]
      exact fun h => hall (List.all_eq_true.2 h)
    have hsplit : buf = buf.takeWhile isspace ++ (buf.dropWhile isspace).rdropWhile isspace ++
        (buf.dropWhile isspace).rtakeWhile isspace := by
      rw [List.append_assoc, List.rdropWhile_append_rtakeWhile, List.takeWhile_append_dropWhile]
    have hhead := List.head?_dropWhile_not isspace buf
    generalize hm : buf.dropWhile isspace = m at hne hsplit hhead ⊢
    cases m with
    | nil => exact absurd rfl hne
    | cons b m =>
      have hb : ¬ isspace b := by simpa using hhead
      have hr : (b :: m).rdropWhile isspace ≠ [] := by
        rw [Ne, List.rdropWhile_eq_nil_iff]
        exact fun h => hb (h b (by simp))
      obtain ⟨t, ht⟩ := List.rdropWhile_prefix isspace (b :: m)
      have hlast := List.rdropWhile_last_not isspace (b :: m) hr
      -- what is left has something else than white space at both ends
      have htyped : Typed (buf.takeWhile isspace ++ (b :: m).rdropWhile isspace ++
          (b :: m).rtakeWhile isspace) ((b :: m).rdropWhile isspace) := by
        refine .tidy (fun _ => List.mem_takeWhile_imp) (fun _ => List.mem_rtakeWhile_imp) ?_
          ⟨_, List.getLast_mem_getLast? hr, hlast⟩
        generalize (b :: m).rdropWhile isspace = r at hr ht
        cases r with
        | nil => exact absurd rfl hr
        | cons b' r =>
          obtain rfl : b' = b := (List.cons.inj ht).1
          exact ⟨b', rfl, hb⟩
      rwa [← hsplit] at htyped

theorem trim_of_typed {buf : Bytes} (h : Typed buf line) : trim buf = line := by
  cases h with
  | blank hspace => exact if_pos (List.all_eq_true.2 hspace)
  | @tidy pre _ post hpre hpost hhead hlast =>
    have hall : ¬ (pre ++ line ++ post).all isspace := by
      obtain ⟨b, hb, hspace⟩ := hhead
      intro h
      exact hspace (List.all_eq_true.1 h b (by simp [List.mem_of_head? hb]))
    have hdrop : (pre ++ line ++ post).dropWhile isspace = line ++ post := by
      rw [List.append_assoc, List.dropWhile_append_of_pos hpre, dropWhile_isspace hhead]
    have hrev : ∃ b ∈ line.reverse.head?, ¬ isspace b := by rwa [List.head?_reverse]
    have hright : line.reverse.dropWhile isspace = line.reverse := by
      have h := dropWhile_isspace hrev []
      rwa [List.append_nil] at h
    rw [trim, if_neg hall, hdrop, List.rdropWhile, List.reverse_append,
      List.dropWhile_append_of_pos (by simpa using hpost), hright, List.reverse_reverse]

theorem parse_iff {buf : Bytes} (hl : buf.length < npos) {fuel : ℕ} (hf : buf.length ≤ fuel) :
    parse fuel buf = some l ↔ ∃ line, Typed buf line ∧ Spells line l := by
  have hlen : ∀ {line}, Typed buf line → line.length ≤ buf.length := by
    intro line h
    cases h with
    | blank => exact le_rfl
    | tidy => simp; omega
  have htyped := typed_trim buf
  have hiff := interpret_iff (l := l) ((hlen htyped).trans_lt hl) ((hlen htyped).trans hf)
  rw [parse, hiff]
  constructor
  · intro h
    exact ⟨_, htyped, h⟩
  · rintro ⟨line, hline, h⟩
    rwa [trim_of_typed hline]

theorem getLast?_of_typed {buf : Bytes} (h : Typed buf line) (hb : ∃ b ∈ line, ¬ isspace b) :
    line.getLast? ≠ some 32 := by
  intro hlast
  cases h with
  | blank hspace =>
    obtain ⟨b, hb, hne⟩ := hb
    exact hne (hspace b hb)
  | tidy _ _ _ hright =>
    obtain ⟨b, hb, hne⟩ := hright
    rw [hlast] at hb
    obtain rfl := Option.some.inj hb
    exact hne rfl

theorem getLast?_of_fields (h : Fields line name args) :
    line.getLast? = args.getLast?.or (some 32) := by
  obtain ⟨n, hline⟩ := fields_append h
  have hsplit : line = (name ++ List.replicate n 32) ++ [32] ++ args := by
    rw [hline, ← List.cons_append, ← List.replicate_succ, List.replicate_succ']
    simp
  rw [hsplit, List.getLast?_append, List.getLast?_concat]

theorem word_ne_nil (hline : Fields line name args) (hargs : args ≠ []) (hword : Word args word) :
    word ≠ [] := by
  rintro rfl
  obtain ⟨-, -, -, hhead⟩ := hline
  rcases hword with ⟨rfl, -⟩ | ⟨rest, hrest⟩
  · exact hargs rfl
  · obtain ⟨n, happ⟩ := fields_append hrest
    exact hhead (by rw [happ]; rfl)

/-- **Arguments are never empty.** -/
theorem words_ne_nil {buf : Bytes} {c : Command} (h : Typed buf line)
    (hc : Spells line (.perform c)) : [] ∉ c.words := by
  have hends {name args : Bytes} (hline : Fields line name args) (hname : ∃ b ∈ name, ¬ isspace b) :
      args.getLast?.or (some 32) ≠ some 32 := by
    rw [← getLast?_of_fields hline]
    obtain ⟨n, happ⟩ := fields_append hline
    obtain ⟨b, hb, hne⟩ := hname
    exact getLast?_of_typed h ⟨b, by simp [happ, hb], hne⟩
  cases hc with
  | @one _ _ args _ _ _ hname hline hargs =>
    -- the line does not end with the spaces after the name
    have hlast := hends hline (by cases hname <;> decide)
    have hne : args ≠ [] := by
      rintro rfl
      exact hlast rfl
    have hword := word_ne_nil hline hne hargs
    cases hname <;> simpa [Command.words] using hword.symm
  | @two _ _ args key value _ hname hline hargs =>
    have hlast := hends hline (by cases hname <;> decide)
    have hne : args ≠ [] := by
      rintro rfl
      exact hlast rfl
    have hkey : key ≠ [] := word_ne_nil hline hne (.inr ⟨_, hargs⟩)
    have hvalue : value ≠ [] := by
      -- or the line would end with a space
      rintro rfl
      rw [getLast?_of_fields hargs] at hlast
      exact hlast rfl
    cases hname <;> simpa [Command.words] using ⟨hkey, hvalue⟩

end

/-- What is typed has the line performed. -/
def Asks (buf : Bytes) (l : Line) : Prop := ∃ line, Typed buf line ∧ Spells line l

end Shell

open Shell

/-- **Whatever is typed is parsed by the grammar.**  No access of the parser is refused, its loops
are over after as many turns as the line has characters, and it finds the one thing that the line
spells, once the white space at its ends is removed.  No command has an empty argument. -/
theorem shell_by_grammar (buf : Bytes) (hl : buf.length < npos) {fuel : ℕ}
    (hf : buf.length ≤ fuel) : ∃ l, parse fuel buf = some l ∧ (∀ l', Asks buf l' ↔ l' = l) ∧
      ∀ c, l = .perform c → [] ∉ c.words := by
  obtain ⟨l, hspells⟩ := exists_spells (trim buf)
  have hl' : parse fuel buf = some l := (parse_iff hl hf).2 ⟨_, typed_trim buf, hspells⟩
  refine ⟨l, hl', ?_, ?_⟩
  · intro l'
    rw [Asks, ← parse_iff hl hf, hl', Option.some.injEq, eq_comm]
  · rintro c rfl
    exact words_ne_nil (typed_trim buf) hspells

/-- The line ` set  /a b c`, and a key that is missing. -/
theorem shell_by_grammar_set :
    let buf := text " set  /a b c\t"
    Asks buf (.perform (.set (text "/a") (text "b c"))) ∧
      ∀ l, Asks buf l → l = .perform (.set (text "/a") (text "b c")) := by
  intro buf
  obtain ⟨l, hl, hasks, -⟩ := shell_by_grammar buf (by decide) (le_refl buf.length)
  have hparse : parse buf.length buf = some (.perform (.set (text "/a") (text "b c"))) := by
    decide +kernel
  obtain rfl := Option.some.inj (hparse.symm.trans hl)
  exact ⟨(hasks _).2 rfl, fun l h => (hasks l).1 h⟩

/-- **A session of the shell is what its lines spell**, performed one after the other on the store
itself: it prints the same, ends in the same way, and leaves the same store, whatever fails at the
server.  The messages of the lines before the first `exit` have to fit. -/
theorem shell_transparent (fb : Flatbuffers) (logged : Bool) (env : Env) (cfg : Config)
    (bufs : List (Bytes × Files)) (lines : List (Line × Files)) (s : Db)
    (hl : ∀ b ∈ bufs, b.1.length < npos)
    (hasks : List.Forall₂ (fun b l => Asks b.1 l.1 ∧ b.2 = l.2) bufs lines)
    (hfits : Along (Line.next env cfg) (Line.Fits fb env cfg) s
      (lines.takeWhile fun l => l.1 != .exit)) :
    Shell.run fb logged env cfg bufs s = execute env cfg lines s := by
  induction hasks generalizing s with
  | nil => rfl
  | @cons b l bufs lines hbl _ ih =>
    obtain ⟨buf, files⟩ := b
    obtain ⟨l, files'⟩ := l
    obtain ⟨hask, rfl⟩ := hbl
    rw [List.forall_mem_cons] at hl
    have hparse : parse buf.length buf = some l := (parse_iff hl.1 le_rfl).2 hask
    by_cases hexit : l = .exit
    · subst hexit
      rw [Shell.run, hparse]
      rfl
    · rw [List.takeWhile_cons_of_pos (by simpa using hexit)] at hfits
      obtain ⟨hfit, hrest⟩ := hfits
      have hnext := ih _ hl.2 hrest
      rw [Shell.run, hparse]
      -- only what is performed needs the server
      cases l with
      | exit => exact absurd rfl hexit
      | perform c =>
        have hrun : Shell.run fb logged env cfg bufs ((c.operation files).direct env cfg s).1 =
            execute env cfg lines ((c.operation files).direct env cfg s).1 := hnext
        simp only [Operation.remote_eq fb logged (hfit c rfl), execute, hrun]
      | _ =>
        have hrun : Shell.run fb logged env cfg bufs s = execute env cfg lines s := hnext
        simp only [execute, hrun]

/-- A value is set and got, and the shell is left. -/
theorem shell_transparent_four :
    let v : Bytes := [97, 97, 97, 97]
    let files : Files := fun _ => none
    let bufs := [text "set /a aaaa", text "get  /a ", text "exit", text "ls /"]
    (Shell.run (.about v) true (Env.reliable fun n => n) (.plain false)
      (bufs.map fun buf => (buf, files)) (Db.init 1)).1 = text "Set key /a\naaaa\nBye\n" := by
  intro v files bufs
  have hasks (buf : Bytes) (l : Line) (hl : buf.length < npos)
      (h : parse buf.length buf = some l) : Asks buf l := (parse_iff hl le_rfl).1 h
  obtain ⟨hset, hget⟩ := fits_two
  have hrun := shell_transparent (.about v) true (Env.reliable fun n => n) (.plain false)
    (bufs.map fun buf => (buf, files))
    [(.perform (.set (text "/a") v), files), (.perform (.get (text "/a")), files), (.exit, files),
      (.perform (.ls (text "/")), files)] (Db.init 1) (by decide)
    (.cons ⟨hasks _ _ (by decide) (by decide +kernel), rfl⟩
      (.cons ⟨hasks _ _ (by decide) (by decide +kernel), rfl⟩
        (.cons ⟨hasks _ _ (by decide) (by decide +kernel), rfl⟩
          (.cons ⟨hasks _ _ (by decide) (by decide +kernel), rfl⟩ .nil))))
    ⟨by rintro _ ⟨⟩; exact hset, by rintro _ ⟨⟩; exact hget, trivial⟩
  rw [hrun]
  decide +kernel

end ConfigDb
