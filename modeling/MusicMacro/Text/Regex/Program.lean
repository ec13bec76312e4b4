import MusicMacro.Text.Regex

/-!
# Programs of regular expressions

An expression is matched by a program whose instructions test a place of the text or take a
character. All ways through the program go along the text side by side, in order of preference, and
no instruction is run twice at one place: the way that reached it first is preferred. So the time is
bounded by the size of the program times the length of the text.

* `Program.ofRegex` — the program of an expression.
* `Program.headLength?` — the length of the preferred match at the head of a text.
* `Program.headLength?_le` — a match never reaches beyond the end of the text.
-/

namespace MusicMacro.Regex

/-- An instruction. Addresses are places in the code of the program. -/
inductive Instruction
  /-- Takes a character of a set and goes on at an address. -/
  | take (s : CharSet) (next : Nat)
  /-- Goes on at the start of the text only. -/
  | atStart (next : Nat)
  /-- Goes on at the end of the text only. -/
  | atEnd (next : Nat)
  /-- Goes on at two addresses, and prefers the first of them. -/
  | fork (first second : Nat)
  /-- Ends a match. -/
  | accept
deriving Repr

/-- A program: its code, and the address where it starts. -/
structure Program where
  code : Array Instruction
  entry : Nat
deriving Repr

namespace Program

/-! ## Writing programs

Instructions are written from the end of an expression to its start, so that the address at which
they go on is known. -/

/-- Adds an instruction. -/
def write (i : Instruction) (code : Array Instruction) : Program :=
  let entry := code.size
  ⟨code.push i, entry⟩

/-- Goes on with the expression, or else past it; the other way round unless `greedy`. -/
def choice (greedy : Bool) (body past : Nat) : Instruction :=
  if greedy then .fork body past else .fork past body

/-- The code for an expression in front of a program, which is where it goes on. -/
def compile : Regex → Program → Program
  | .empty, p => p
  | .literal cs, p => cs.foldr (fun c ⟨code, past⟩ => write (.take (.single c) past) code) p
  | .one s, ⟨code, past⟩ => write (.take s past) code
  | .atStart, ⟨code, past⟩ => write (.atStart past) code
  | .atEnd, ⟨code, past⟩ => write (.atEnd past) code
  | .append r s, p => compile r (compile s p)
  | .either r s, ⟨code, past⟩ =>
    let ⟨code, second⟩ := compile s ⟨code, past⟩
    let ⟨code, first⟩ := compile r ⟨code, past⟩
    write (.fork first second) code
  | .capture _ r, p => compile r p
  | .repeated greedy least (some most) r, ⟨code, past⟩ =>
    let optional (p : Program) : Program :=
      let ⟨code, body⟩ := compile r p
      write (choice greedy body past) code
    Nat.repeat (compile r) least (Nat.repeat optional (most - least) ⟨code, past⟩)
  | .repeated greedy least none r, ⟨code, past⟩ =>
    let again := code.size
    let ⟨code, body⟩ := compile r (write .accept code)
    let turn := choice greedy body past
    let code := code.setIfInBounds again turn
    match least with
    | 0 => if r.mayBeEmpty then write turn code else ⟨code, again⟩
    | least + 1 => Nat.repeat (compile r) least ⟨code, body⟩

/-- The program of an expression. -/
def ofRegex (r : Regex) : Program := compile r (write .accept #[])

/-! ## Running programs -/

/-- A way through the program that waits for a character of a set, to go on at an address. -/
structure Thread where
  wanted : CharSet
  next : Nat

/-- What the ways come to at one place of the text: those that wait for a character, in order of
preference, and whether a match ends there, which is preferred to all ways that have been left out.
Instructions that have been run are marked with the number of the place. -/
structure Halt where
  threads : List Thread
  accepted : Bool
  marks : Array Nat

/-- The number of instructions without a mark. -/
def unmarked (mark : Nat) (marks : Array Nat) : Nat := marks.countP (· != mark)

theorem unmarked_set {mark a : Nat} {marks : Array Nat} (ha : a < marks.size)
    (hm : marks[a] ≠ mark) : unmarked mark (marks.set a mark) + 1 = unmarked mark marks := by
  have hpos : 0 < marks.countP (· != mark) :=
    Array.countP_pos_iff.2 ⟨marks[a], Array.getElem_mem ha, by simpa using hm⟩
  unfold unmarked
  rw [Array.countP_set]
  simp [hm]
  omega

/-- Where an instruction goes on at a place of the text. -/
def successors (isStart isEnd : Bool) : Instruction → List Nat
  | .atStart next => if isStart then [next] else []
  | .atEnd next => if isEnd then [next] else []
  | .fork first second => [first, second]
  | .take .. | .accept => []

theorem length_successors_le (isStart isEnd : Bool) (i : Instruction) :
    (successors isStart isEnd i).length ≤ 2 := by
  cases i <;> simp [successors] <;> split <;> simp

/-- Runs all instructions that can be reached at a place without a character. -/
def halt (code : Array Instruction) (isStart isEnd : Bool) (mark : Nat) :
    (pending : List Nat) → (marks : Array Nat) → (threads : List Thread) → Halt
  | [], marks, threads => ⟨threads.reverse, false, marks⟩
  | a :: pending, marks, threads =>
    if h : ∃ ha : a < marks.size, marks[a] ≠ mark then
      let marks' := marks.set a mark h.1
      match code[a]? with
      | some .accept => ⟨threads.reverse, true, marks'⟩
      | some (.take s next) =>
        halt code isStart isEnd mark pending marks' (⟨s, next⟩ :: threads)
      | some i =>
        halt code isStart isEnd mark (successors isStart isEnd i ++ pending) marks' threads
      | none => halt code isStart isEnd mark pending marks' threads
    else halt code isStart isEnd mark pending marks threads
termination_by pending marks => 2 * unmarked mark marks + pending.length
decreasing_by
  all_goals
    try have hu := unmarked_set h.1 h.2
    try have hs := length_successors_le isStart isEnd i
    simp only [List.length_cons, List.length_append]
    omega

/-- Runs a program from a place on, with the length of the best match so far. The marks are those
of the places before. -/
def run (code : Array Instruction) (place : Nat) (best : Option Nat) (pending : List Nat)
    (marks : Array Nat) (cs : List Char) : Option Nat :=
  let h := halt code (place = 0) cs.isEmpty (place + 1) pending marks []
  let best := if h.accepted then some place else best
  match cs with
  | [] => best
  | c :: rest =>
    match h.threads.filter (·.wanted.contains c) with
    | [] => best
    | threads => run code (place + 1) best (threads.map Thread.next) h.marks rest

/-- The length of the preferred match at the head of a text. -/
def headLength? (p : Program) (cs : List Char) : Option Nat :=
  run p.code 0 none [p.entry] (Array.replicate p.code.size 0) cs

theorem run_le {code : Array Instruction} {place : Nat} {best : Option Nat} {pending : List Nat}
    {marks : Array Nat} {cs : List Char} {n : Nat}
    (h : run code place best pending marks cs = some n) :
    best = some n ∨ n ≤ place + cs.length := by
  induction cs generalizing place best pending marks with
  | nil =>
    simp only [run] at h
    split at h
    · simp only [Option.some.injEq] at h; omega
    · exact .inl h
  | cons c rest ih =>
    simp only [run] at h
    split at h
    · split at h
      · simp only [Option.some.injEq] at h; omega
      · exact .inl h
    · rw [List.length_cons]
      rcases ih h with hb | hle
      · split at hb
        · simp only [Option.some.injEq] at hb; omega
        · exact .inl hb
      · omega

theorem headLength?_le {p : Program} {cs : List Char} {n : Nat} (h : p.headLength? cs = some n) :
    n ≤ cs.length := by
  simpa using run_le h

end Program

end MusicMacro.Regex
