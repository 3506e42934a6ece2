import ConfigDb.Api.Operations
import ConfigDb.Storage.Components

/-!
# Files of keys and values

`BaseConnection::import` and the seed program read a file line by line.  Each has a copy of the same
parser: the key is what stands before the first space, and a loop on positions in the line moves
over the spaces that follow, up to the value.

Positions in a line are 64-bit numbers, as in `ConfigDb.Storage.Path`.  Both copies count lines in
32 bits.

## Main definitions

* `Api.scanLine` : the parser, with every access checked.
* `Api.BaseConnection.importFrom`, `Api.Seed.readFrom` : the loops over the lines of a file.
* `Api.Fields` : the grammar of a line.
* `Api.readLines` : the lines of a file.

## Main results

* `Api.scanLine_eq` : the parser refuses no access, and is over after as many turns as the line has
  characters.
* `import_by_grammar_iff` : lines are parsed by their grammar, and a file is counted right if and
  only if it has less than `2 ^ 32` lines.
* `lines_miscounted` : a file of `2 ^ 32` empty lines.
-/

namespace ConfigDb

namespace Api

/-! ### The parser -/

/-- `lv.find( ' ', pos )`. -/
def findSpace (lv : Bytes) (pos : ℕ) : ℕ :=
  match (lv.drop pos).idxOf? 32 with
  | some i => pos + i
  | none => npos

/-- The loop over the spaces: as long as there is nothing between the space at `stop` and the one at
`vidx`, it moves on by one.  It has no answer when an access is refused, or when it is not over
after `fuel` checks of its condition. -/
def skipSpaces (lv : Bytes) : ℕ → ℕ → ℕ → Option ℕ
  | 0, _, _ => none
  | fuel + 1, stop, vidx =>
    if vidx ≠ npos then do
      let between ← substrAt lv (posAdd stop 1) (posSub (posSub vidx stop) 1)
      if between.isEmpty then
        skipSpaces lv fuel (posAdd stop 1) (findSpace lv (posAdd (posAdd stop 1) 1))
      else some stop
    else some stop

/-- What the body of the loop over the lines makes of a line; in the source `stop` is `end`. -/
def scanLine (fuel : ℕ) (lv : Bytes) : Option (Option RequestData) := do
  let idx := findSpace lv 0
  if idx = npos then return none
  let stop ← skipSpaces lv fuel idx (findSpace lv (posAdd idx 1))
  let key ← substrAt lv 0 idx
  let value ← substrAt lv (posAdd stop 1) npos
  return some ⟨key, value, {}⟩

/-! ### Files -/

/-- `std::getline` : the text up to the end of the line, and what follows it. -/
def getline (f : Bytes) : Option (Bytes × Bytes) :=
  if f.isEmpty then none else some (f.takeWhile (· != 10), (f.dropWhile (· != 10)).tail)

/-- The local variables of `BaseConnection::import`. -/
structure Imported where
  /-- The number of lines with a key and a value. -/
  count : UInt32 := 0
  /-- The number of lines. -/
  total : UInt32 := 0
  /-- The keys and values. -/
  kvs : List RequestData := []

/-- The loop of `BaseConnection::import` over what is left of the file. -/
def BaseConnection.importFrom : ℕ → Bytes → Imported → Option Imported
  | 0, _, _ => none
  | fuel + 1, f, s =>
    match getline f with
    | none => some s
    | some (line, f) => do
      let s := { s with total := s.total + 1 }
      match ← scanLine line.length line with
      | none => importFrom fuel f s
      | some kv => importFrom fuel f { s with count := s.count + 1, kvs := s.kvs ++ [kv] }

/-- The local variables of the seed program, which reports the size of `kvs` as the count. -/
structure Seeded where
  /-- The number of lines. -/
  total : UInt32 := 0
  /-- The keys and values. -/
  kvs : List RequestData := []

/-- The loop of the seed program over what is left of the file. -/
def Seed.readFrom : ℕ → Bytes → Seeded → Option Seeded
  | 0, _, _ => none
  | fuel + 1, f, s =>
    match getline f with
    | none => some s
    | some (line, f) => do
      let s := { s with total := s.total + 1 }
      match ← scanLine line.length line with
      | none => readFrom fuel f s
      | some kv => readFrom fuel f { s with kvs := s.kvs ++ [kv] }

/-! ### What is to be read -/

/-- The grammar of a line: a key without spaces, one or more spaces, and a value that does not begin
with a space. -/
def Fields (line key value : Bytes) : Prop :=
  ∃ n, line = key ++ List.replicate (n + 1) 32 ++ value ∧ 32 ∉ key ∧ value.head? ≠ some 32

/-- A character and the lines that follow it. -/
def consLine (b : UInt8) : List Bytes → List Bytes
  | [] => [[b]]
  | line :: lines => (b :: line) :: lines

/-- The lines of a file: each is ended by a newline, but for the last one, which may also be ended
by the end of the file. -/
def readLines : Bytes → List Bytes
  | [] => []
  | b :: f => if b = 10 then [] :: readLines f else consLine b (readLines f)

/-! ### The loop over the spaces -/

section

variable {line pre rest key value : Bytes}

theorem findSpace_of_notMem {pos : ℕ} (h : 32 ∉ line.drop pos) : findSpace line pos = npos := by
  rw [findSpace, List.idxOf?_eq_none_iff.2 h]

theorem findSpace_of_append {pos : ℕ} {r : Bytes} (hd : line.drop pos = key ++ 32 :: r)
    (hk : 32 ∉ key) : findSpace line pos = pos + key.length := by
  rw [findSpace, hd, idxOf?_append_cons hk]

theorem takeWhile_of_head (h : value.head? ≠ some 32) : value.takeWhile (· == 32) = [] := by
  cases value with
  | nil => rfl
  | cons b value =>
    have hb : ¬ b = 32 := fun hb => h (congrArg some hb)
    rw [List.takeWhile_cons_of_neg (by simpa using hb)]

theorem dropWhile_of_head (h : value.head? ≠ some 32) : value.dropWhile (· == 32) = value := by
  have hsplit := List.takeWhile_append_dropWhile (p := (· == 32)) (l := value)
  rwa [takeWhile_of_head h, List.nil_append] at hsplit

/-- **The loop over the spaces** stops at the last one of those that follow `pre`. -/
theorem skipSpaces_eq (hl : line.length < npos) (fuel : ℕ) (h : line = pre ++ 32 :: rest)
    (hf : rest.length < fuel) :
    skipSpaces line fuel pre.length (findSpace line (pre.length + 1)) =
      some (pre.length + (rest.takeWhile (· == 32)).length) := by
  induction fuel generalizing pre rest with
  | zero => omega
  | succ fuel ih =>
    have hd : line.drop (pre.length + 1) = rest := by
      rw [h, ← List.drop_drop]
      simp
    have hlen : line.length = pre.length + (rest.length + 1) := by simp [h]
    by_cases hmem : 32 ∈ rest
    · obtain ⟨comp, r, hr, hc⟩ := List.eq_append_cons_of_mem hmem
      have hrl : rest.length = comp.length + (r.length + 1) := by simp [hr]
      have hn : pre.length + 1 + comp.length ≠ npos := by omega
      have ht : pre.length + 1 + comp.length - pre.length - 1 = comp.length := by omega
      have hbetween : substr line (pre.length + 1) comp.length = comp := by
        rw [substr_eq_take, hd, hr, List.take_left]
      rw [findSpace_of_append (hd.trans hr) hc, skipSpaces, if_pos hn,
        posAdd_one (show pre.length < npos by omega), posSub_posSub_one (by omega) (by omega), ht,
        substrAt_of_le (by omega), hbetween, Option.bind_eq_bind, Option.bind_some,
        posAdd_one (show pre.length + 1 < npos by omega)]
      cases comp with
      | nil =>
        -- nothing is in between: the next space is where the loop goes on
        have hk : line = (pre ++ [32]) ++ 32 :: r := by simp [h, hr]
        have hp : pre.length + 1 = (pre ++ [32]).length := by simp
        rw [if_pos List.isEmpty_nil, hp, ih hk (by omega), hr, List.nil_append,
          List.takeWhile_cons_of_pos (by decide), List.length_cons]
        refine congrArg some ?_
        omega
      | cons b comp =>
        have hb : rest.head? ≠ some 32 := by
          rw [hr]
          exact fun hb => hc (by simp [Option.some.inj hb])
        rw [if_neg (by simp), takeWhile_of_head hb]
        rfl
    · -- there is no other space: `vidx` is `npos`
      have hb : rest.head? ≠ some 32 := fun hb => hmem (List.mem_of_head? hb)
      rw [findSpace_of_notMem (by rwa [hd]), skipSpaces, if_neg (fun hn => hn rfl),
        takeWhile_of_head hb]
      rfl

/-- **The parser** refuses no access, and reads the key and the value of a line, if it has a
space. -/
theorem scanLine_eq (hl : line.length < npos) {fuel : ℕ} (hf : line.length ≤ fuel) :
    scanLine fuel line = some (parseLine line) := by
  unfold scanLine parseLine
  by_cases hmem : 32 ∈ line
  · obtain ⟨key, rest, h, hk⟩ := List.eq_append_cons_of_mem hmem
    have hlen : line.length = key.length + (rest.length + 1) := by simp [h]
    have hidx : findSpace line 0 = key.length := by
      rw [findSpace_of_append (r := rest) (by rw [List.drop_zero, h]) hk, Nat.zero_add]
    have hn : ¬ key.length = npos := by omega
    have hle : (rest.takeWhile (· == 32)).length ≤ rest.length :=
      (List.takeWhile_sublist _).length_le
    have hkey : substr line 0 key.length = key := by
      rw [substr_eq_take, List.drop_zero, h, List.take_left]
    have hskip := skipSpaces_eq hl fuel h (by omega)
    have hsplit : line = (key ++ 32 :: rest.takeWhile (· == 32)) ++ rest.dropWhile (· == 32) := by
      rw [List.append_assoc, List.cons_append, List.takeWhile_append_dropWhile, h]
    have hdrop : line.drop (key.length + (rest.takeWhile (· == 32)).length + 1) =
        rest.dropWhile (· == 32) := by
      rw [congrArg (List.drop _) hsplit]
      refine List.drop_left' ?_
      rw [List.length_append, List.length_cons, Nat.add_assoc]
    have hvalue : substr line (key.length + (rest.takeWhile (· == 32)).length + 1) npos =
        rest.dropWhile (· == 32) := by
      have hrest : (rest.dropWhile (· == 32)).length ≤ rest.length :=
        (List.dropWhile_sublist _).length_le
      rw [substr_eq_take, hdrop, List.take_of_length_le (by omega)]
    have hparse : line.takeWhile (· != 32) = key ∧
        (line.dropWhile (· != 32)).dropWhile (· == 32) = rest.dropWhile (· == 32) := by
      rw [h, takeWhile_append_cons hk, dropWhile_append_cons hk]
      exact ⟨rfl, List.dropWhile_cons_of_pos (by decide)⟩
    rw [hidx, if_neg hn, if_pos hmem, hparse.1, hparse.2,
      posAdd_one (show key.length < npos by omega), hskip, substrAt_of_le (Nat.zero_le _), hkey]
    simp only [Option.bind_eq_bind, Option.bind_some]
    rw [posAdd_one (by omega), substrAt_of_le (by omega), hvalue]
    rfl
  · rw [findSpace_of_notMem (by rwa [List.drop_zero]), if_pos rfl, if_neg hmem]
    rfl

/-- **The grammar of a line** determines its key and its value. -/
theorem fields_iff (hmem : 32 ∈ line) : Fields line key value ↔
    key = line.takeWhile (· != 32) ∧ value = (line.dropWhile (· != 32)).dropWhile (· == 32) := by
  constructor
  · rintro ⟨n, h, hk, hv⟩
    have hline : line = key ++ 32 :: (List.replicate n 32 ++ value) := by
      rw [h, List.replicate_succ, List.append_assoc, List.cons_append]
    rw [hline, takeWhile_append_cons hk, dropWhile_append_cons hk]
    refine ⟨rfl, ?_⟩
    rw [List.dropWhile_cons_of_pos (by decide), List.dropWhile_append_of_pos, dropWhile_of_head hv]
    intro b hb
    rw [List.eq_of_mem_replicate hb]
    rfl
  · rintro ⟨rfl, rfl⟩
    obtain ⟨key, rest, h, hk⟩ := List.eq_append_cons_of_mem hmem
    have hspaces : rest.takeWhile (· == 32) =
        List.replicate (rest.takeWhile (· == 32)).length 32 := by
      refine List.eq_replicate_iff.2 ⟨rfl, fun b hb => ?_⟩
      simpa using List.mem_takeWhile_imp hb
    rw [h, takeWhile_append_cons hk, dropWhile_append_cons hk,
      List.dropWhile_cons_of_pos (by decide)]
    refine ⟨(rest.takeWhile (· == 32)).length, ?_, hk, fun hv => ?_⟩
    · rw [List.replicate_succ, ← hspaces, List.append_assoc, List.cons_append,
        List.takeWhile_append_dropWhile]
    · have := List.head?_dropWhile_not (· == 32) rest
      rw [hv] at this
      cases this

/-! ### The lines of a file -/

theorem readLines_of_ne {f : Bytes} (hf : f ≠ []) :
    readLines f = f.takeWhile (· != 10) :: readLines (f.dropWhile (· != 10)).tail := by
  induction f with
  | nil => exact absurd rfl hf
  | cons b f ih =>
    by_cases hb : b = 10
    · subst hb
      rfl
    · have hpos : (b != 10) = true := bne_iff_ne.2 hb
      rw [readLines, if_neg hb, List.takeWhile_cons_of_pos (p := (· != 10)) hpos,
        List.dropWhile_cons_of_pos (p := (· != 10)) hpos]
      by_cases hnil : f = []
      · subst hnil
        rfl
      · rw [ih hnil]
        rfl

theorem readLines_append {l : Bytes} (h : 10 ∉ l) (f : Bytes) :
    readLines (l ++ 10 :: f) = l :: readLines f := by
  rw [readLines_of_ne (by simp), takeWhile_append_cons h, dropWhile_append_cons h]
  rfl

theorem readLines_of_notMem {l : Bytes} (h : 10 ∉ l) (hne : l ≠ []) : readLines l = [l] := by
  rw [readLines_of_ne hne, takeWhile_of_notMem h, List.dropWhile_eq_nil_iff.2 (bne_of_notMem h)]
  rfl

/-- **The lines of a file** are those that are ended by newlines, and what follows the last newline,
if there is anything. -/
theorem readLines_flatMap {ls : List Bytes} (h : ∀ l ∈ ls, 10 ∉ l) {last : Bytes}
    (hlast : 10 ∉ last) : readLines ((ls.flatMap fun l => l ++ [10]) ++ last) =
      ls ++ if last = [] then [] else [last] := by
  induction ls with
  | nil =>
    rw [List.flatMap_nil, List.nil_append, List.nil_append]
    split_ifs with hnil
    · rw [hnil]
      rfl
    · exact readLines_of_notMem hlast hnil
  | cons l ls ih =>
    rw [List.forall_mem_cons] at h
    have hcons : ((l :: ls).flatMap fun l => l ++ [10]) ++ last =
        l ++ 10 :: ((ls.flatMap fun l => l ++ [10]) ++ last) := by simp
    rw [hcons, readLines_append h.1, ih h.2, List.cons_append]

/-! ### The loops over the lines -/

/-- What the seed program would have after the same lines. -/
def Imported.seeded (s : Imported) : Seeded := ⟨s.total, s.kvs⟩

/-- **The copy in the seed program** does the same, but for the counter of the keys. -/
theorem readFrom_eq_map (fuel : ℕ) (f : Bytes) (s : Imported) :
    Seed.readFrom fuel f s.seeded =
      (BaseConnection.importFrom fuel f s).map Imported.seeded := by
  induction fuel generalizing f s with
  | zero => rfl
  | succ fuel ih =>
    rw [Seed.readFrom, BaseConnection.importFrom]
    cases getline f with
    | none => rfl
    | some next =>
      obtain ⟨line, f⟩ := next
      cases hscan : scanLine line.length line with
      | none => simp [hscan]
      | some parsed =>
        cases parsed with
        | none =>
          simp only [hscan, Option.bind_eq_bind, Option.bind_some]
          exact ih f { s with total := s.total + 1 }
        | some kv =>
          simp only [hscan, Option.bind_eq_bind, Option.bind_some]
          exact ih f { s with total := s.total + 1, count := s.count + 1, kvs := s.kvs ++ [kv] }

theorem add_one_add_ofNat (a : UInt32) (n : ℕ) :
    a + 1 + UInt32.ofNat n = a + UInt32.ofNat (n + 1) := by
  rw [UInt32.ofNat_add, UInt32.add_assoc, UInt32.add_comm 1]
  rfl

/-- **The loop over the lines** is over after as many turns as the file has characters, and one
more; its counters count modulo `2 ^ 32`. -/
theorem importFrom_eq {f : Bytes} (hl : f.length < npos) {fuel : ℕ} (hf : f.length < fuel)
    (s : Imported) : BaseConnection.importFrom fuel f s = some {
      count := s.count + UInt32.ofNat ((readLines f).filterMap parseLine).length
      total := s.total + UInt32.ofNat (readLines f).length
      kvs := s.kvs ++ (readLines f).filterMap parseLine } := by
  induction fuel generalizing f s with
  | zero => omega
  | succ fuel ih =>
    rw [BaseConnection.importFrom]
    by_cases hnil : f = []
    · subst hnil
      simp [getline, readLines]
    · have hget : getline f = some (f.takeWhile (· != 10), (f.dropWhile (· != 10)).tail) :=
        if_neg (by simpa using hnil)
      have hline : (f.takeWhile (· != 10)).length ≤ f.length := (List.takeWhile_sublist _).length_le
      have hrest : (f.dropWhile (· != 10)).tail.length < f.length := by
        have hpos := List.length_pos_iff.2 hnil
        have hdrop : (f.dropWhile (· != 10)).length ≤ f.length :=
          (List.dropWhile_sublist _).length_le
        rw [List.length_tail]
        omega
      rw [hget, readLines_of_ne hnil]
      dsimp only
      rw [scanLine_eq (hline.trans_lt hl) le_rfl, Option.bind_eq_bind, Option.bind_some]
      cases hparse : parseLine (f.takeWhile (· != 10)) with
      | none =>
        dsimp only
        rw [ih (hrest.trans hl) (by omega), List.filterMap_cons_none hparse, List.length_cons,
          add_one_add_ofNat]
      | some kv =>
        dsimp only
        rw [ih (hrest.trans hl) (by omega), List.filterMap_cons_some hparse, List.length_cons,
          List.length_cons, add_one_add_ofNat, add_one_add_ofNat, List.append_assoc,
          List.singleton_append]

theorem length_filterMap_parseLine (ls : List Bytes) :
    (ls.filterMap parseLine).length = ls.countP (32 ∈ ·) := by
  induction ls with
  | nil => rfl
  | cons l ls ih =>
    by_cases h : 32 ∈ l
    · have hparse : parseLine l = some _ := if_pos h
      rw [List.filterMap_cons_some hparse, List.length_cons, ih,
        List.countP_cons_of_pos (by simpa using h)]
    · have hparse : parseLine l = none := if_neg h
      rw [List.filterMap_cons_none hparse, ih, List.countP_cons_of_neg (by simpa using h)]

/-- The numbers are those of the lines with a space and of all lines. -/
def Counts (f : Bytes) (count total : ℕ) : Prop :=
  count = (readLines f).countP (32 ∈ ·) ∧ total = (readLines f).length

theorem counts_iff {f : Bytes} {s : Imported} (hs : s = {
      count := UInt32.ofNat ((readLines f).filterMap parseLine).length
      total := UInt32.ofNat (readLines f).length
      kvs := (readLines f).filterMap parseLine }) :
    (Counts f s.count.toNat s.total.toNat ↔ (readLines f).length < 2 ^ 32) ∧
      (Counts f s.seeded.kvs.length s.seeded.total.toNat ↔ (readLines f).length < 2 ^ 32) := by
  have hle : (readLines f).countP (32 ∈ ·) ≤ (readLines f).length := List.countP_le_length
  simp only [hs, Imported.seeded, Counts, length_filterMap_parseLine, UInt32.toNat_ofNat',
    true_and]
  constructor <;> constructor <;> omega

end

end Api

open Api

/-- **Lines are parsed by their grammar, and counted modulo `2 ^ 32`.**  The parser makes nothing of
a line without a space, and of any other line the only key and value that the grammar allows.  The
loops of `BaseConnection::import` and of the seed program find the same keys and values in a file,
namely those of its lines, and each reports the right numbers if and only if the file has less than
`2 ^ 32` lines. -/
theorem import_by_grammar_iff (line f : Bytes) (hline : line.length < npos) (hf : f.length < npos)
    {turns fuel : ℕ} (hturns : line.length ≤ turns) (hfuel : f.length < fuel) :
    ((32 ∉ line → scanLine turns line = some none) ∧
      (32 ∈ line → ∃ key value, scanLine turns line = some (some ⟨key, value, {}⟩) ∧
        ∀ k v, Fields line k v ↔ k = key ∧ v = value)) ∧
      ∃ r r', BaseConnection.importFrom fuel f {} = some r ∧ Seed.readFrom fuel f {} = some r' ∧
        r.kvs = (readLines f).filterMap parseLine ∧ r'.kvs = r.kvs ∧
        (Counts f r.count.toNat r.total.toNat ↔ (readLines f).length < 2 ^ 32) ∧
        (Counts f r'.kvs.length r'.total.toNat ↔ (readLines f).length < 2 ^ 32) := by
  refine ⟨⟨?_, ?_⟩, ?_⟩
  · intro hmem
    rw [scanLine_eq hline hturns, parseLine, if_neg hmem]
  · intro hmem
    refine ⟨line.takeWhile (· != 32), (line.dropWhile (· != 32)).dropWhile (· == 32), ?_, ?_⟩
    · rw [scanLine_eq hline hturns, parseLine, if_pos hmem]
    · intro k v
      exact fields_iff hmem
  · have hrun := importFrom_eq hf hfuel {}
    have hseed := readFrom_eq_map fuel f {}
    rw [hrun, Option.map_some] at hseed
    simp only [UInt32.zero_add, List.nil_append] at hrun hseed
    obtain ⟨himport, hread⟩ := counts_iff (f := f) rfl
    exact ⟨_, _, hrun, hseed, rfl, rfl, himport, hread⟩

/-- The line `a  b`, and a file with this line and a line without a space. -/
theorem import_by_grammar_two :
    let f : Bytes := [97, 32, 32, 98, 10, 99, 10]
    (∃ key value, scanLine 4 [97, 32, 32, 98] = some (some ⟨key, value, {}⟩) ∧
        ([97] : Bytes) = key ∧ ([98] : Bytes) = value) ∧
      ∃ r r', BaseConnection.importFrom 8 f {} = some r ∧ Seed.readFrom 8 f {} = some r' ∧
        Counts f r.count.toNat r.total.toNat ∧ Counts f r'.kvs.length r'.total.toNat := by
  intro f
  have hturns : ([97, 32, 32, 98] : Bytes).length ≤ 4 := by decide
  have hfuel : f.length < 8 := by decide
  obtain ⟨⟨-, hsome⟩, r, r', hr, hr', -, -, himport, hread⟩ :=
    import_by_grammar_iff [97, 32, 32, 98] f (by decide) (by decide) hturns hfuel
  obtain ⟨key, value, hscan, hfields⟩ := hsome (by decide)
  refine ⟨⟨key, value, hscan, ?_⟩, r, r', hr, hr', himport.2 (by decide), hread.2 (by decide)⟩
  exact (hfields [97] [98]).1 ⟨1, by decide, by decide, by decide⟩

theorem readLines_replicate (n : ℕ) : readLines (List.replicate n 10) = List.replicate n [] := by
  induction n with
  | zero => rfl
  | succ n ih => rw [List.replicate_succ, readLines, if_pos rfl, ih, List.replicate_succ]

/-- **Lines are lost count of.**  A file of `2 ^ 32` empty lines has none, says either program. -/
theorem lines_miscounted :
    let f : Bytes := List.replicate (2 ^ 32) 10
    (readLines f).length = 2 ^ 32 ∧
      ∀ fuel, f.length < fuel → ∃ r r', BaseConnection.importFrom fuel f {} = some r ∧
        Seed.readFrom fuel f {} = some r' ∧ r.total = 0 ∧ r'.total = 0 := by
  intro f
  have hlen : (readLines f).length = 2 ^ 32 := by
    rw [readLines_replicate, List.length_replicate]
  have hshort : f.length < npos := by
    rw [List.length_replicate]
    decide
  refine ⟨hlen, fun fuel hf => ?_⟩
  have hrun := importFrom_eq hshort hf {}
  have hseed := readFrom_eq_map fuel f {}
  rw [hrun, Option.map_some] at hseed
  have htotal : (0 : UInt32) + UInt32.ofNat (readLines f).length = 0 := by
    rw [hlen]
    rfl
  exact ⟨_, _, hrun, hseed, htotal, htotal⟩

end ConfigDb
