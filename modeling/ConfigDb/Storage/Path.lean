import ConfigDb.Storage.Basic

/-!
# Keys and the components of their paths

`Database::getKey` and `Database::treeComponents`.  Positions in a string are 64-bit numbers and
`npos` is the largest of them: after the last slash the loop of `treeComponents` computes
`npos + 1`, which wraps around to `0`, and looks at the string once more from there.
-/

namespace ConfigDb

/-- `std::string_view::npos`. -/
def npos : ℕ := 2 ^ 64 - 1

/-- Addition of positions. -/
def posAdd (i j : ℕ) : ℕ := (i + j) % 2 ^ 64

/-- Subtraction of positions. -/
def posSub (i j : ℕ) : ℕ := (i + (2 ^ 64 - j % 2 ^ 64)) % 2 ^ 64

/-- `key.find( '/', pos )`. -/
def find (key : Bytes) (pos : ℕ) : ℕ :=
  match (key.drop pos).idxOf? slash with
  | some i => pos + i
  | none => npos

/-- `key.substr( pos, n )`, for a position inside the string. -/
def substr (key : Bytes) (pos n : ℕ) : Bytes :=
  (key.drop pos).take (min n (key.length - pos))

/-- `key.substr( pos, n )`, which throws `std::out_of_range` for a position past the end. -/
def substrAt (key : Bytes) (pos n : ℕ) : Option Bytes :=
  if pos ≤ key.length then some (substr key pos n) else none

/-- `Database::getKey` : keys start with a slash. -/
def getKey (key : Bytes) : Bytes :=
  match key with
  | [] => [slash]
  | b :: _ => if b = slash then key else slash :: key

/-- A parent path and the name of a child. -/
abbrev Tuple := Bytes × Bytes

/-- The tuple that one turn of the loop of `treeComponents` adds for the slash at `index`. -/
def treeComponent (key : Bytes) (index : ℕ) : List Tuple :=
  if posAdd index 1 < key.length then
    let idx := find key (posAdd index 1)
    let sub :=
      if idx ≠ npos then substr key (posAdd index 1) (posSub (posSub idx index) 1)
      else substr key (posAdd index 1) (posSub (posSub key.length index) 1)
    if sub.isEmpty then [] else [(substr key 0 index, sub)]
  else []

/-- The turns of the loop of `treeComponents` after the first tuple; `fuel` bounds their number. -/
def treeComponentsLoop (key : Bytes) : ℕ → ℕ → List Tuple
  | 0, _ => []
  | fuel + 1, index =>
    if index = npos then []
    else
      let index := find key (posAdd index 1)
      treeComponent key index ++ treeComponentsLoop key fuel index

/-- `Database::treeComponents`.  Every turn of the loop moves on by at least one character, so it
makes at most `key.length + 1` turns. -/
def treeComponents (key : Bytes) : List Tuple :=
  (substr key 0 1, substr key 1 (posSub (find key 1) 1)) ::
    treeComponentsLoop key (key.length + 1) 0

/-! ### The loop with its accesses checked -/

/-- The tuple that a turn of the loop of `treeComponents` adds at the first character. -/
def rootTuple (key : Bytes) (index : ℕ) : Option (List Tuple) :=
  if index = 0 then do
    let idx := find key (posAdd index 1)
    let parent ← substrAt key 0 (posAdd index 1)
    let child ← substrAt key (posAdd index 1) (posSub (posSub idx index) 1)
    pure [(parent, child)]
  else pure []

/-- The tuple that a turn of the loop of `treeComponents` adds for the slash at `index`. -/
def slashTuple (key : Bytes) (index : ℕ) : Option (List Tuple) :=
  if posAdd index 1 < key.length then do
    let idx := find key (posAdd index 1)
    let sub ←
      if idx ≠ npos then substrAt key (posAdd index 1) (posSub (posSub idx index) 1)
      else substrAt key (posAdd index 1) (posSub (posSub key.length index) 1)
    if sub.isEmpty then pure []
    else do
      let parent ← substrAt key 0 index
      pure [(parent, sub)]
  else pure []

/-- The loop of `treeComponents` from `index` on, with every access checked.  It has no answer when
an access is refused, or when it is not over after `fuel` turns. -/
def treeComponentsFrom (key : Bytes) : ℕ → ℕ → Option (List Tuple)
  | fuel, index =>
    if index = npos then some []
    else
      match fuel with
      | 0 => none
      | fuel + 1 => do
        let first ← rootTuple key index
        let index := find key (posAdd index 1)
        let next ← slashTuple key index
        let rest ← treeComponentsFrom key fuel index
        pure (first ++ next ++ rest)

end ConfigDb
