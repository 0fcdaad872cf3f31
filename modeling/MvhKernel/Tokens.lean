-- The tokenizer of the utilities (`util.c`).
import Mathlib.Data.List.TakeWhile
import MvhKernel.Strings

open guarded_memory Memory

namespace mvh.util

/-! ## The functions -/

def mvh_ascii_is_space (character : Int8) : Bool :=
  character = 32 || character = 9 || character = 10 || character = 13 || character = 12 || character = 11

def inRun (character : Int8) : Bool := character ≠ 0 && !mvh_ascii_is_space character

def spanLoop (m : Memory Int8) (goes : Int8 → Bool) : Nat → Nat → Option Nat
  | 0, _ => none
  | fuel + 1, a => do
    let character ← m.load a
    if goes character then do
      let length ← spanLoop m goes fuel (a + 1)
      some (length + 1)
    else some 0

def mvh_str_trim_left (m : Memory Int8) (text : Nat) : Option Nat :=
  if text = 0 then some 0
  else do
    let length ← spanLoop m mvh_ascii_is_space (2 ^ 64) text
    some (text + length)

def mvh_str_skip_space (m : Memory Int8) (text : Nat) : Option Nat := mvh_str_trim_left m text

def mvh_str_next_token (m : Memory Int8) (cursor : Option Nat) (token capacity : Nat) :
    Option (Int × Option Nat × Memory Int8) :=
  match cursor with
  | none => some (-1, none, m)
  | some text =>
    if text = 0 ∨ token = 0 ∨ capacity = 0 then some (-1, cursor, m)
    else do
      let start ← mvh_str_skip_space m text
      let first ← m.load start
      if first = 0 then do
        let m ← m.put token 0
        some (0, some start, m)
      else do
        let length ← spanLoop m inRun (2 ^ 64) start
        if length ≥ capacity then some (-1, cursor, m)
        else do
          let (_, m) ← mvh_str_ncopy m token capacity start length
          some (1, some (start + length), m)

def afterCalls (m : Memory Int8) (cursor : Option Nat) (token capacity : Nat) :
    Nat → Option (Option Nat × Memory Int8)
  | 0 => some (cursor, m)
  | n + 1 => do
    let (cursor, m) ← afterCalls m cursor token capacity n
    let (_, cursor, m) ← mvh_str_next_token m cursor token capacity
    some (cursor, m)

/-! ## Runs -/

def runs (text : Text) : List Text := (text.splitOnP mvh_ascii_is_space).filter (· ≠ [])

theorem runs_nil : runs [] = [] := rfl

theorem runs_space {c : Int8} (hc : mvh_ascii_is_space c = true) (text : Text) : runs (c :: text) = runs text := by
  unfold runs
  rw [List.splitOnP_cons_eq_if_modifyHead, if_pos hc]
  rfl

theorem runs_skip {spaces : Text} (h : ∀ c ∈ spaces, mvh_ascii_is_space c = true) (text : Text) :
    runs (spaces ++ text) = runs text := by
  induction spaces with
  | nil => rfl
  | cons c spaces ih => grind [List.cons_append, runs_space]

theorem runs_run {run rest : Text} (hrn : run ≠ []) (h : ∀ c ∈ run, mvh_ascii_is_space c = false)
    (hr : ∀ c ∈ rest.head?, mvh_ascii_is_space c = true) : runs (run ++ rest) = run :: runs rest := by
  cases rest with
  | nil =>
    grind [List.append_nil, List.splitOnP_eq_singleton, List.splitOnP_nil, List.filter_cons_of_pos, runs]
  | cons c rest =>
    have hc := hr c rfl
    grind [runs_space, List.splitOnP_append_cons_of_forall_mem, List.filter_cons_of_pos, runs]

/-! ## One call -/

section
variable {m : Memory Int8} {a token capacity : Nat} {text : Text}

theorem spanLoop_eq (g : Int8 → Bool) (hn : g 0 = false) {f : Nat} (hb : m.Begins a (text ++ [0]))
    (hf : text.length < f) : spanLoop m g f a = some (text.takeWhile g).length := by
  induction text generalizing a f with
  | nil =>
    obtain ⟨f, rfl⟩ := Nat.exists_eq_add_one_of_ne_zero (Nat.ne_of_gt hf)
    rw [spanLoop, (begins_cons.mp hb).1, Option.bind_eq_bind, Option.bind_some, hn]
    rfl
  | cons c text ih =>
    obtain ⟨f, rfl⟩ := Nat.exists_eq_add_one_of_ne_zero (Nat.ne_of_gt (Nat.zero_lt_of_lt hf))
    obtain ⟨hfr, hr⟩ := begins_cons.mp hb
    rw [spanLoop, hfr, Option.bind_eq_bind, Option.bind_some, List.takeWhile_cons]
    cases g c with
    | true =>
      rw [if_pos rfl, if_pos rfl, ih hr (Nat.lt_of_succ_lt_succ hf)]
      rfl
    | false => rfl

/-- The parts of a text that a call sees: spaces, a run, and the rest. -/
structure Parts (text spaces run rest : Text) : Prop where
  whole : text = spaces ++ (run ++ rest)
  skipped : text.takeWhile mvh_ascii_is_space = spaces
  taken : (run ++ rest).takeWhile inRun = run
  ended : run = [] → rest = [] ∧ runs text = []
  found : run ≠ [] → runs text = run :: runs rest

theorem exists_parts (hcl : 0 ∉ text) : ∃ spaces run rest, Parts text spaces run rest := by
  have hw : text.takeWhile mvh_ascii_is_space ++ text.dropWhile mvh_ascii_is_space = text := by simp
  have hs : runs text = runs (text.dropWhile mvh_ascii_is_space) := by
    conv_lhs => rw [← hw]
    exact runs_skip (fun c hc => List.mem_takeWhile_imp hc) _
  have hst := List.head?_dropWhile_not mvh_ascii_is_space text
  have hc' : 0 ∉ text.dropWhile mvh_ascii_is_space := by grind
  generalize text.dropWhile mvh_ascii_is_space = others at hw hs hst hc'
  have ho : others.takeWhile inRun ++ others.dropWhile inRun = others := by simp
  have hr := List.head?_dropWhile_not inRun others
  refine ⟨text.takeWhile mvh_ascii_is_space, others.takeWhile inRun, others.dropWhile inRun, ?_, rfl, ?_, ?_, ?_⟩
  · rw [ho, hw]
  · rw [ho]
  · intro hn
    cases others with
    | nil => exact ⟨rfl, hs⟩
    | cons c others => grind [inRun]
  · intro hsm
    rw [hs]
    conv_lhs => rw [← ho]
    refine runs_run hsm (fun c hc => ?_) (fun c hc => ?_)
    · have hin := List.mem_takeWhile_imp hc
      simp only [inRun, Bool.and_eq_true, Bool.not_eq_true'] at hin
      exact hin.2
    · have hne : c ≠ 0 := by grind
      grind [inRun]

/-- A text that is ahead of the cursor, apart from the token buffer. -/
structure Ahead (m : Memory Int8) (token capacity a : Nat) (text : Text) : Prop where
  spelled : Spelled m a text
  apart : a + text.length < token ∨ token + capacity ≤ a
  token_open : m.Open token capacity
  token_given : token ≠ 0

theorem Ahead.skip (h : Ahead m token capacity a text) {b rest w : Text} (ht : text = b ++ rest)
    (hw : w.length ≤ capacity) :
    Ahead (m.written token w) token capacity (a + b.length) rest := by
  have ha := h.apart
  have hs := h.spelled
  rw [ht] at hs
  rw [ht, List.length_append] at ha
  exact ⟨hs.rest.written (by omega), by omega, h.token_open, h.token_given⟩

section
variable {spaces run rest : Text} (h : Ahead m token capacity a text) (hparts : Parts text spaces run rest)
include h hparts

theorem skip_space_eq : mvh_str_skip_space m a = some (a + spaces.length) := by
  have hf := h.spelled.fits
  unfold mvh_str_skip_space mvh_str_trim_left
  rw [if_neg h.spelled.given, spanLoop_eq _ rfl h.spelled.begins (by omega), hparts.skipped]
  rfl

theorem found_spelled : Spelled m (a + spaces.length) (run ++ rest) := by
  have hs := h.spelled
  rw [hparts.whole] at hs
  exact hs.rest

theorem next_token_eq (hc : 0 < capacity) :
    mvh_str_next_token m (some a) token capacity =
      (m.load (a + spaces.length)).bind fun first =>
        if first = 0 then (m.put token 0).bind fun m => some (0, some (a + spaces.length), m)
        else if run.length ≥ capacity then some (-1, some a, m)
        else (mvh_str_ncopy m token capacity (a + spaces.length) run.length).bind fun copied =>
          some (1, some (a + spaces.length + run.length), copied.2) := by
  have hf := found_spelled h hparts
  have hft := hf.fits
  have hg : ¬ (a = 0 ∨ token = 0 ∨ capacity = 0) := by
    have hgv := h.spelled.given
    have ht := h.token_given
    omega
  unfold mvh_str_next_token
  simp only [Option.bind_eq_bind]
  rw [if_neg hg, skip_space_eq h hparts, Option.bind_some, spanLoop_eq _ rfl hf.begins (by omega),
    hparts.taken]
  rfl

theorem next_token_end (hc : 0 < capacity) (hr : run = []) :
    mvh_str_next_token m (some a) token capacity =
      some (0, some (a + spaces.length), m.written token ([] ++ [0])) := by
  have hf := found_spelled h hparts
  rw [hr, (hparts.ended hr).1] at hf
  have ht : m.writable token = true := h.token_open 0 hc
  rw [next_token_eq h hparts hc, (begins_cons.mp hf.begins).1, Option.bind_some, if_pos rfl,
    put_eq ht]
  rfl

theorem next_token_run (hcp : 0 < capacity) (hr : run ≠ []) :
    mvh_str_next_token m (some a) token capacity =
      if run.length < capacity then
        some (1, some (a + spaces.length + run.length), m.written token (run ++ [0]))
      else some (-1, some a, m) := by
  have hf := found_spelled h hparts
  have hcd (hft : run.length < capacity) : mvh_str_ncopy m token capacity (a + spaces.length) run.length =
      some (min (run ++ rest).length run.length, m.written token (run ++ [0])) := by
    have ha := h.apart
    have hl : text.length = spaces.length + (run ++ rest).length := by
      rw [hparts.whole, List.length_append]
    rw [ncopy_eq run.length hf h.token_given hcp h.token_open (by omega),
      Nat.min_eq_left (by omega : run.length ≤ capacity - 1), List.take_left]
  rw [next_token_eq h hparts hcp]
  cases run with
  | nil => exact absurd rfl hr
  | cons c run =>
    have hc : c ≠ 0 := fun hz => hf.clean (hz ▸ List.mem_cons_self)
    rw [(begins_cons.mp hf.begins).1, Option.bind_some, if_neg hc]
    grind

end

theorem next_token_no_room (m : Memory Int8) (c : Option Nat) (token : Nat) :
    mvh_str_next_token m c token 0 = some (-1, c, m) := by
  cases c with
  | none => rfl
  | some a => exact if_pos (.inr (.inr rfl))

end

/-! ## All calls -/

/-- A call with a text and a token buffer. -/
structure TokenCall (m : Memory Int8) (a : Nat) (text : Text) (token capacity : Nat) : Prop where
  spelled : Spelled m a text
  apart : a + text.length < token ∨ token + capacity ≤ a
  token_given : token ≠ 0
  writes : ∀ x, m.writable x = true ↔ token ≤ x ∧ x < token + capacity

section
variable {m : Memory Int8} {a token capacity : Nat} {text : Text}

theorem afterCalls_ahead (cl : TokenCall m a text token capacity) (n : Nat)
    (hft : ∀ run ∈ (runs text).take n, run.length < capacity) :
    ∃ a' m' t', afterCalls m (some a) token capacity n = some (some a', m') ∧
      Ahead m' token capacity a' t' ∧ runs t' = (runs text).drop n ∧
      ∀ x, x < token ∨ token + capacity ≤ x → m'.cells x = m.cells x := by
  induction n with
  | zero =>
    have ho : m.Open token capacity := fun i hi => (cl.writes _).mpr ⟨by omega, by omega⟩
    exact ⟨a, m, text, rfl, ⟨cl.spelled, cl.apart, ho, cl.token_given⟩, rfl, fun _ _ => rfl⟩
  | succ n ih =>
    obtain ⟨a', m', t', haf, ha, hrn, hf⟩ :=
      ih fun run hm => hft run ((List.take_prefix_take_left (Nat.le_succ n)).mem hm)
    have hn {code : Int} {c : Option Nat} {m'' : Memory Int8}
        (hcl : mvh_str_next_token m' (some a') token capacity = some (code, c, m'')) :
        afterCalls m (some a) token capacity (n + 1) = some (c, m'') := by
      simp [afterCalls, haf, hcl]
    have hk {w : Text} (hw : w.length ≤ capacity) (x : Nat)
        (hx : x < token ∨ token + capacity ≤ x) : (m'.written token w).cells x = m.cells x := by
      rw [written_outside (by omega), hf x hx]
    have hl : (runs text).drop (n + 1) = (runs t').tail := by rw [hrn, List.tail_drop]
    rw [hl]
    rcases Nat.eq_zero_or_pos capacity with rfl | hc
    · refine ⟨a', m', t', hn (next_token_no_room m' _ token), ha, ?_, hf⟩
      cases hal : runs text with
      | nil => simp [hal, List.drop_nil, hrn]
      | cons run mr =>
        rw [hal] at hft
        exact absurd (hft run List.mem_cons_self) (Nat.not_lt_zero _)
    · obtain ⟨spaces, run, rest, hparts⟩ := exists_parts ha.spelled.clean
      by_cases hr : run = []
      · obtain ⟨hrs, hnn⟩ := hparts.ended hr
        have hwh := hparts.whole
        rw [hr, hrs] at hwh
        rw [hnn]
        exact ⟨_, _, [], hn (next_token_end ha hparts hc hr), ha.skip hwh hc, rfl,
          hk hc⟩
      · have hfn := hparts.found hr
        have hs : run.length < capacity := by grind
        have hw : (run ++ [0]).length ≤ capacity := by grind
        have hcl := next_token_run ha hparts hc hr
        rw [if_pos hs, Nat.add_assoc, ← List.length_append] at hcl
        rw [hfn]
        refine ⟨_, _, rest, hn hcl, ha.skip ?_ hw, rfl, hk hw⟩
        rw [List.append_assoc]
        exact hparts.whole

/-- Call after call gives the runs in their order as long as they fit, and then empty tokens. A run
that does not fit is refused, and nothing changes. -/
theorem the_tokens_are_the_runs (m : Memory Int8) (a : Nat) (text : Text) (token capacity : Nat)
    (call : TokenCall m a text token capacity) (n : Nat)
    (hfit : ∀ run ∈ (runs text).take n, run.length < capacity) :
    ∃ a' m', afterCalls m (some a) token capacity n = some (some a', m') ∧
      (∀ x, x < token ∨ token + capacity ≤ x → m'.cells x = m.cells x) ∧
      (∀ run, (runs text)[n]? = some run → run.length < capacity →
        ∃ a'' m'', mvh_str_next_token m' (some a') token capacity = some (1, some a'', m'') ∧
          Stored m'' token run) ∧
      (∀ run, (runs text)[n]? = some run → capacity ≤ run.length →
        mvh_str_next_token m' (some a') token capacity = some (-1, some a', m')) ∧
      ((runs text)[n]? = none → 0 < capacity →
        ∃ a'' m'', mvh_str_next_token m' (some a') token capacity = some (0, some a'', m'') ∧
          Stored m'' token []) := by
  obtain ⟨a', m', text', hafter, hahead, hruns, hframe⟩ := afterCalls_ahead call n hfit
  obtain ⟨spaces, run, rest, hparts⟩ := exists_parts hahead.spelled.clean
  have hhead : (runs text)[n]? = (runs text').head? := by rw [hruns, List.head?_drop]
  have hfound {r : Text} (hr : (runs text)[n]? = some r) : run ≠ [] ∧ run = r := by
    rw [hhead] at hr
    by_cases hrun : run = []
    · rw [(hparts.ended hrun).2] at hr
      cases hr
    · rw [hparts.found hrun] at hr
      exact ⟨hrun, Option.some.inj hr⟩
  refine ⟨a', m', hafter, hframe, ?_, ?_, ?_⟩
  · intro r hr hshort
    obtain ⟨hrun, rfl⟩ := hfound hr
    have hcall := next_token_run hahead hparts (Nat.zero_lt_of_lt hshort) hrun
    rw [if_pos hshort] at hcall
    exact ⟨_, _, hcall, stored_written _ _ _⟩
  · intro r hr hlong
    obtain ⟨hrun, rfl⟩ := hfound hr
    rcases Nat.eq_zero_or_pos capacity with rfl | hcapacity
    · exact next_token_no_room m' _ token
    · rw [next_token_run hahead hparts hcapacity hrun, if_neg (Nat.not_lt.mpr hlong)]
  · intro hnone hcapacity
    have hrun : run = [] := by
      by_contra hsome
      rw [hhead, hparts.found hsome] at hnone
      cases hnone
    exact ⟨_, _, next_token_end hahead hparts hcapacity hrun, stored_written _ _ _⟩

end

/-- The text ` a b` at address 8, and a token buffer of two characters. -/
def twoWords : Memory Int8 where
  cells x := ([32, 97, 32, 98] : Text).getD (x - 8) 0
  readable _ := true
  writable x := decide (32 ≤ x ∧ x < 32 + 2)

theorem twoWords_call : TokenCall twoWords 8 [32, 97, 32, 98] 32 2 where
  spelled := ⟨by simp [begins_cons, begins_nil, load, twoWords], by decide, by decide, by decide⟩
  apart := by decide
  token_given := by decide
  writes _ := decide_eq_true_iff

/-- The second call gives the second word. -/
theorem the_second_word :
    ∃ a' m', afterCalls twoWords (some 8) 32 2 1 = some (some a', m') ∧
      ∃ a'' m'', mvh_str_next_token m' (some a') 32 2 = some (1, some a'', m'') ∧ Stored m'' 32 [98] := by
  obtain ⟨a', m', hafter, -, hrun, -⟩ :=
    the_tokens_are_the_runs twoWords 8 [32, 97, 32, 98] 32 2 twoWords_call 1 (by decide)
  exact ⟨a', m', hafter, hrun [98] (by decide) (by decide)⟩

end mvh.util
