import Thompson.Proofs.Pattern.TraceLines
import Thompson.Proofs.Pattern.Trail

/-!
Where a trace stops. A verbose line has two blanks in front for each active rule, and no more than
`greatestWidth` of them can be asked for. So the program stops where a rule is entered or an
operation is done below too many active rules; at an exit or a failure it never stops first, since
the rule that ends was entered as deep. How many rules are active depends on the open groups alone:
four for each of them, and no more than five besides. Parentheses that are opened often enough
therefore stop any verbose trace, and a pattern that does not nest so deep never does.
-/
namespace Thompson

namespace Recorder

variable {r : Recorder} {es : List (Event Summary)} {e : Event Summary}

theorem stops_eq_true : r.stops e = true ↔
    ∃ writer, r.writer? e = some writer ∧ greatestWidth < writer.width := by
  rw [stops, Option.any_eq_true]
  simp only [decide_eq_true_eq]

theorem noteAll?_eq_none_iff : r.noteAll? es = none ↔
    ∃ before e after, es = before ++ e :: after ∧ (r.noteAll before).1.stops e = true := by
  induction es generalizing r with
  | nil => simp [noteAll?]
  | cons e es ih =>
    rw [noteAll?]
    by_cases stops : r.stops e = true
    · rw [if_pos stops]
      exact iff_of_true rfl ⟨[], e, es, rfl, stops⟩
    · rw [if_neg stops, Option.map_eq_none_iff, ih]
      constructor
      · rintro ⟨before, e', after, rfl, here⟩
        exact ⟨e :: before, e', after, rfl, here⟩
      · rintro ⟨before, e', after, split, here⟩
        cases before with
        | nil =>
          obtain ⟨rfl, rfl⟩ := List.cons.inj split
          exact absurd here stops
        | cons first before =>
          obtain ⟨rfl, rfl⟩ := List.cons.inj split
          exact ⟨before, e', after, rfl, here⟩

theorem noteAll?_eq_some (goes : r.noteAll? es ≠ none) : r.noteAll? es = some (r.noteAll es) := by
  induction es generalizing r with
  | nil => rfl
  | cons e es ih =>
    rw [noteAll?] at goes ⊢
    by_cases stops : r.stops e = true
    · rw [if_pos stops] at goes
      contradiction
    · rw [if_neg stops] at goes ⊢
      rw [ih fun none => goes (by rw [none]; rfl)]
      rfl

theorem noteAll_verbosity : (r.noteAll es).1.verbosity = r.verbosity := by
  induction es generalizing r with
  | nil => rfl
  | cons e es ih =>
    have kept : (r.after e).verbosity = r.verbosity := by cases e <;> rfl
    exact ih.trans kept

theorem noteAll?_default (depth : Nat) (failureShown : Bool) :
    noteAll? ⟨.default, depth, failureShown⟩ es = some (noteAll ⟨.default, depth, failureShown⟩ es) := by
  apply noteAll?_eq_some
  rw [Ne, noteAll?_eq_none_iff]
  rintro ⟨before, e, after, _, stops⟩
  have brief : (noteAll ⟨.default, depth, failureShown⟩ before).1.verbosity = .default :=
    noteAll_verbosity
  generalize (noteAll ⟨.default, depth, failureShown⟩ before).1 = r at brief stops
  obtain ⟨_, depth, shown⟩ := r
  cases brief
  obtain ⟨writer, written, wide⟩ := stops_eq_true.mp stops
  have narrow : writer.width = 0 := by
    cases e with
    | enter | leave => contradiction
    | build =>
      cases written
      rfl
    | fail =>
      cases shown with
      | true => contradiction
      | false =>
        cases written
        rfl
  rw [narrow] at wide
  contradiction

theorem exists_enter {depth : Nat} (above : r.depth ≤ depth) (deep : depth < (r.noteAll es).1.depth) :
    ∃ before rule offset after, es = before ++ .enter rule offset :: after ∧
      (r.noteAll before).1.depth = depth := by
  induction es generalizing r with
  | nil => exact absurd deep (Nat.not_lt_of_le above)
  | cons e es ih =>
    by_cases still : (r.after e).depth ≤ depth
    · obtain ⟨before, rule, offset, after, rfl, there⟩ := ih still deep
      exact ⟨e :: before, rule, offset, after, rfl, there⟩
    · -- only an entry leads below a depth that was not passed before
      cases e with
      | enter rule offset =>
        have here : r.depth = depth := by
          simp only [after] at still
          omega
        exact ⟨[], rule, offset, es, rfl, here⟩
      | leave | fail =>
        simp only [after] at still
        omega
      | build => exact absurd above still

theorem stops_iff (verbose : r.verbosity = .verbose) (goesOn : e.isEnd = false) :
    r.stops e = true ↔ greatestWidth < 2 * r.depth := by
  have writes : r.writer? e = some r := by
    cases e with
    | enter => exact if_pos verbose
    | build => rfl
    | leave | fail => contradiction
  rw [stops_eq_true, writes]
  simp [width, verbose]

theorem width_of_stops (verbose : r.verbosity = .verbose) (ends : e.isEnd = true)
    (stops : r.stops e = true) : greatestWidth < 2 * (r.depth - 1) := by
  obtain ⟨writer, written, wide⟩ := stops_eq_true.mp stops
  have out : writer = r.after e := by
    cases e with
    | enter | build => contradiction
    | leave | fail =>
      simp only [writer?, Option.ite_none_right_eq_some, Option.ite_none_left_eq_some,
        Option.some.injEq] at written
      exact written.2.symm
  have there : writer.width = 2 * (r.depth - 1) := by
    cases e with
    | enter | build => contradiction
    | leave | fail => simp [out, width, after, verbose]
  rwa [there] at wide

/-- Whether a failure was shown before makes no difference. -/
theorem noteAll?_verbose_eq_none_iff (failureShown : Bool) :
    noteAll? ⟨.verbose, 0, failureShown⟩ es = none ↔
      ∃ before e after, es = before ++ e :: after ∧ e.isEnd = false ∧
        greatestWidth < 2 * (noteAll ⟨.verbose, 0, failureShown⟩ before).1.depth := by
  have verbose (before) : (noteAll ⟨.verbose, 0, failureShown⟩ before).1.verbosity = .verbose :=
    noteAll_verbosity
  rw [noteAll?_eq_none_iff]
  constructor
  · rintro ⟨before, e, after, rfl, stops⟩
    cases ends : e.isEnd with
    | false => exact ⟨before, e, after, rfl, ends, (stops_iff (verbose before) ends).mp stops⟩
    | true =>
      -- the rule that ends was entered in a line as wide
      have wide := width_of_stops (verbose before) ends stops
      have inside : (noteAll ⟨.verbose, 0, failureShown⟩ before).1.depth - 1 <
          (noteAll ⟨.verbose, 0, failureShown⟩ before).1.depth := by omega
      obtain ⟨outer, rule, offset, inner, split, there⟩ := exists_enter (Nat.zero_le _) inside
      refine ⟨outer, .enter rule offset, inner ++ e :: after, ?_, rfl, ?_⟩
      · rw [split, List.append_assoc, List.cons_append]
      · rwa [there]
  · rintro ⟨before, e, after, split, goesOn, wide⟩
    exact ⟨before, e, after, split, (stops_iff (verbose before) goesOn).mpr wide⟩

end Recorder

/-- A rule is entered or an operation done below more active rules than there are blanks for. -/
def Overflows (es : List (Event Summary)) : Prop :=
  ∃ before e after, es = before ++ e :: after ∧ e.isEnd = false ∧
    greatestWidth < 2 * (before.countP Event.isEntry - before.countP Event.isEnd)

section Active

variable {σ α β : Type} {bound : Nat} {rules rules' : List Rule} {es more : List (Event β)}

/-- With some rules active before them, events never come to more active rules than the bound. -/
def Within (bound : Nat) (rules : List Rule) (es : List (Event β)) : Prop :=
  ∀ before after, es = before ++ after →
    before.countP Event.isEntry + rules.length ≤ before.countP Event.isEnd + bound

theorem within_of_entries (few : es.countP Event.isEntry + rules.length ≤ bound) :
    Within bound rules es := by
  rintro before after rfl
  rw [List.countP_append] at few
  omega

theorem Within.append (first : Within bound rules es) (calls : Calls rules es rules')
    (second : Within bound rules' more) : Within bound rules (es ++ more) := by
  intro before after split
  rcases List.append_eq_append_iff.mp split with ⟨rest, rfl, same⟩ | ⟨rest, rfl, _⟩
  · have there := second rest after same
    have counted := calls.count
    rw [List.countP_append, List.countP_append]
    omega
  · exact first before rest rfl

namespace Reader

variable {K : Construction σ α β} {limit : Option Nat} {cfg last : Config σ α} {s : σ}
  {offset : Nat} {text : List Char}

theorem length_rulesAround (levels : Nat) : (rulesAround levels).length = 4 * levels := by
  induction levels with
  | zero => rfl
  | succ levels ih =>
    rw [rulesAround_succ]
    simp only [List.length_cons, ih]
    omega

def entries (log : List (Entry σ β)) : Nat := (told log).countP Event.isEntry

@[simp] theorem entries_nil : entries ([] : List (Entry σ β)) = 0 := rfl

@[simp] theorem entries_cons (event : Event β) (log : List (Entry σ β)) :
    entries (⟨event, offset, s⟩ :: log) = entries log + if event.isEntry then 1 else 0 :=
  List.countP_cons

@[simp] theorem entries_append (log more : List (Entry σ β)) :
    entries (log ++ more) = entries log + entries more := by
  rw [entries, told, List.map_append, List.countP_append]
  rfl

@[simp] theorem entries_unwind (levels : Nat) (e : PatternError) :
    entries (unwind (β := β) levels e offset s) = 0 := by
  rw [entries, told_unwind, List.countP_map]
  exact List.countP_eq_zero.mpr fun _ _ => Bool.false_ne_true

@[simp] theorem entries_unite (done : List α) (value : α) :
    entries (unite K offset s done value).1 = 0 := by
  induction done generalizing value s with
  | nil => rfl
  | cons branch done ih => exact (entries_cons _ _).trans (by rw [ih]; rfl)

theorem entries_close (here : Branches α) : entries (close K offset s here).1 = 0 := by
  simp [close, Event.isEntry]

theorem entries_act (groups : List (Group α)) (here : Branches α) (c : Char) :
    entries (act K limit offset s groups here c).1 ≤ 2 := by
  unfold act
  split
  · simp [bar, Event.isEntry]
  · cases groups <;> simp [closeGroup, entries_close, Event.isEntry]
  · have none : entries (if c = '(' then openGroup (β := β) limit offset s groups here
        else literal K c offset s groups here).1 = 0 := by
      by_cases opening : c = '('
      · rw [if_pos opening]
        unfold openGroup
        split <;> simp
      · rw [if_neg opening]
        unfold literal
        split <;> simp [Event.isEntry]
    simp [none, Event.isEntry]

theorem length_rules (cfg : Config σ α) :
    cfg.rules.length = cfg.focus.rules.length + 4 * cfg.groups.length := by
  rw [Config.rules, List.length_append, length_rulesAround]

theorem within_step (cfg : Config σ α) (c : Char) :
    Within (4 * cfg.groups.length + 5) cfg.rules (told (step K limit cfg c).1) := by
  apply within_of_entries
  rw [length_rules]
  show entries _ + _ ≤ _
  rcases repeats_or_not cfg c with ⟨rfl, here, value, focus⟩ | other
  · simp [step, focus, star, Focus.rules, Event.isEntry]
    omega
  · have acts := @entries_act σ α β K limit (settled K cfg).2 cfg.offset cfg.groups
      (settled K cfg).1 c
    rw [step_eq other, entries_append]
    have settles : entries (settle K cfg.offset cfg.supply cfg.focus).1 + cfg.focus.rules.length ≤ 3 := by
      cases cfg.focus <;> simp [settle, Focus.rules, Event.isEntry]
    omega

theorem entries_finish (cfg : Config σ α) : entries (finish K cfg).log = 0 := by
  cases focus : cfg.focus with
  | opened => simp [finish, focus]
  | term | factor =>
    cases groups : cfg.groups <;> simp [finish, focus, groups, settle, entries_close, Event.isEntry]

variable (K limit) in
def Nested (groups : Nat) (cfg : Config σ α) (text : List Char) : Prop :=
  ∀ before behind last, text = before ++ behind → after K limit cfg before = .ok last →
    last.groups.length ≤ groups

theorem within_advance {groups : Nat} (nested : Nested K limit groups cfg text) :
    Within (4 * groups + 5) cfg.rules (told (advance K limit cfg text).1) := by
  induction text generalizing cfg with
  | nil =>
    have here := nested [] [] cfg rfl rfl
    have few : cfg.focus.rules.length ≤ 3 := by cases cfg.focus <;> simp [Focus.rules]
    apply within_of_entries
    rw [length_rules]
    simp [advance, told]
    omega
  | cons c text ih =>
    have here := nested [] (c :: text) cfg rfl rfl
    have first : Within (4 * groups + 5) cfg.rules (told (step K limit cfg c).1) := by
      intro before after split
      have := within_step cfg c before after split
      omega
    have turns := turns_step K limit cfg c
    unfold advance
    rcases stepped : step K limit cfg c with ⟨log, e | next⟩
    · rw [stepped] at first
      exact first
    · rw [stepped] at first turns
      have calls : Calls cfg.rules (told log) next.rules := turns
      have rest : Within (4 * groups + 5) next.rules (told (advance K limit next text).1) := by
        apply ih
        intro before behind last split leads
        apply nested (c :: before) behind last (by rw [split]; rfl)
        rw [after_cons_of_ok (by rw [stepped]), leads]
      simp only [told, List.map_append]
      exact first.append calls rest

theorem calls_after (leads : after K limit (origin K s) text = .ok last) :
    Calls [] (told ((start K s).1 ++ (advance K limit (origin K s) text).1)) last.rules := by
  have begun : Calls [] (told (start K s).1) (origin K s).rules := calls_settle .opened
  have active : (origin K s).rules ≠ [] := List.cons_ne_nil _ _
  obtain ⟨turns, _⟩ := turns_advance K limit text active
  unfold after at leads
  rw [leads] at turns
  exact calls_append begun turns

variable (K limit) in
theorem told_read (s : σ) {u v : List Char} {c : Char}
    (leads : after K limit (origin K s) u = .ok last) :
    ∃ more, told (read K limit s (u ++ c :: v)).log =
      told ((start K s).1 ++ (advance K limit (origin K s) u).1) ++
        (told (step K limit last c).1 ++ more) := by
  unfold origin after at leads
  unfold origin read
  rcases starts : start K s with ⟨begun, cfg⟩
  rw [starts] at leads
  rcases advanced : advance K limit cfg u with ⟨log, outcome⟩
  simp only [advanced] at leads
  subst leads
  simp only [advance_append, advanced, advance]
  rcases step K limit last c with ⟨one, e | next⟩
  · exact ⟨[], by simp [told]⟩
  · rcases later : advance K limit next v with ⟨more, e | final⟩
    · exact ⟨told more, by simp [told, later]⟩
    · exact ⟨told more ++ told (finish K final).log, by simp [told, later]⟩

theorem told_step_of_opened (opened : cfg.focus = .opened) (c : Char) :
    ∃ more, told (step K limit cfg c).1 = .enter .regex cfg.offset :: more := by
  rw [step_eq (Or.inr fun _ _ focus => by rw [opened] at focus; contradiction), opened]
  exact ⟨_, rfl⟩

theorem within_read {groups : Nat} (nested : Nested K limit groups (origin K s) text) :
    Within (4 * groups + 5) [] (told (read K limit s text).log) := by
  have begun : Within (4 * groups + 5) [] (told (start K s).1) :=
    within_of_entries (by simp [start, settle, told, Event.isEntry, List.countP_cons])
  have calls : Calls [] (told (start K s).1) (origin K s).rules := calls_settle .opened
  have through := begun.append calls (within_advance nested)
  have leads := @calls_after σ α β K limit
  have reached := nested text []
  unfold origin after at *
  unfold read
  rcases starts : start K s with ⟨log, cfg⟩
  rw [starts] at through reached
  rcases advanced : advance K limit cfg text with ⟨more, e | last⟩
  · simp only [advanced, told, List.map_append] at through ⊢
    exact through
  · simp only [advanced] at through reached ⊢
    have few := reached last (List.append_nil _).symm rfl
    have rules : last.focus.rules.length ≤ 3 := by cases last.focus <;> simp [Focus.rules]
    have ends : Within (4 * groups + 5) last.rules (told (finish K last).log) := by
      apply within_of_entries
      rw [length_rules]
      show entries _ + _ ≤ _
      rw [entries_finish]
      omega
    have called := @leads last s text (by rw [starts, advanced])
    simp only [starts, advanced, told, List.map_append] at through called ⊢
    exact through.append called ends

theorem nested_of_limit {n : Nat} (few : cfg.groups.length ≤ n) : Nested K (some n) n cfg text := by
  intro before behind last split leads
  clear split
  induction before generalizing cfg with
  | nil =>
    cases leads
    exact few
  | cons c before ih =>
    have move := step_move K (some n) cfg c
    cases one : (step K (some n) cfg c).2 with
    | error e =>
      rw [after_cons_of_error one] at leads
      contradiction
    | ok next =>
      rw [after_cons_of_ok one] at leads
      refine ih ?_ leads
      rw [one] at move
      generalize outcome : Except.ok next = result at move
      cases move with
      | star | bar | letter =>
        cases outcome
        exact few
      | close groups =>
        cases outcome
        rw [groups] at few
        exact Nat.le_of_succ_le few
      | opening shallow =>
        cases outcome
        exact shallow n rfl
      | stray | tooDeep | misplaced => contradiction

theorem nested_of_mostOpen {groups : Nat} (few : mostOpen text ≤ groups) :
    Nested K limit groups (origin K s) text := by
  rintro before behind last rfl leads
  have opened := (behind_of_after leads).trail.count_open
  have most := openGroups_le_mostOpen before behind
  rw [openGroups] at most
  omega

end Reader

end Active

def safeGroups : Nat := 8190

/-- The limit or the pattern itself keeps the groups that are open at once few enough. -/
def Shallow (limit : Option Nat) (pattern : String) : Prop :=
  (∃ n ∈ limit, n ≤ safeGroups) ∨ mostOpen pattern.toList ≤ safeGroups

theorem Shallow.not_overflows {limit : Option Nat} {pattern : String} (shallow : Shallow limit pattern) :
    ¬Overflows (events limit pattern) := by
  obtain ⟨groups, few, nested⟩ : ∃ groups ≤ safeGroups,
      Reader.Nested thompson limit groups (Reader.origin thompson ⟨0⟩) pattern.toList := by
    rcases shallow with ⟨n, limited, few⟩ | few
    · obtain rfl := Option.mem_def.mp limited
      exact ⟨n, few, Reader.nested_of_limit (Nat.zero_le _)⟩
    · exact ⟨_, Nat.le_refl _, Reader.nested_of_mostOpen few⟩
  rintro ⟨before, e, after, split, _, wide⟩
  have active := Reader.within_read nested before (e :: after) split
  simp only [List.length_nil, safeGroups, greatestWidth] at *
  omega

section Deep

open Reader (after origin told)

variable {limit : Option Nat} {pattern : String} {u v : List Char} {c : Char}
  {last : Config NameSupply Automaton}

theorem overflows_of_opened (text : pattern.toList = u ++ c :: v)
    (leads : after thompson limit (origin thompson ⟨0⟩) u = .ok last) (opened : last.focus = .opened)
    (deep : greatestWidth < 2 * (4 * last.groups.length)) : Overflows (events limit pattern) := by
  obtain ⟨more, rest⟩ := Reader.told_read (v := v) (c := c) thompson limit ⟨0⟩ leads
  obtain ⟨inside, enters⟩ := @Reader.told_step_of_opened _ _ _ thompson limit _ opened c
  have counted := (Reader.calls_after leads).count
  rw [List.length_nil, Reader.length_rules, opened, Focus.rules, List.length_nil] at counted
  rw [enters, ← text, List.cons_append] at rest
  refine ⟨_, _, _, rest, rfl, ?_⟩
  omega

theorem exists_after_opening (n : Nat) (cfg : Config NameSupply Automaton) :
    ∃ last, after thompson none cfg (List.replicate n '(') = .ok last := by
  induction n generalizing cfg with
  | zero => exact ⟨cfg, rfl⟩
  | succ n ih =>
    have one := @Reader.step_open _ _ _ thompson none cfg nofun
    rw [List.replicate_succ, Reader.after_cons_of_ok one]
    exact ih _

def emptyGroups (n : Nat) : String := String.ofList (List.replicate n '(' ++ List.replicate n ')')

/-- They are a pattern, however many they are, but the trace of too many of them overflows. -/
theorem emptyGroups_spec (n : Nat) : (∃ A, compile none (emptyGroups n) = .ok A) ∧
    (greatestWidth < 2 * (4 * n) → Overflows (events none (emptyGroups n))) := by
  obtain ⟨last, leads⟩ := exists_after_opening n (origin thompson ⟨0⟩)
  have place := Reader.behind_of_after leads
  have groups : last.groups.length = n := by
    have opened := place.trail.count_open
    simp [List.count_replicate] at opened
    omega
  constructor
  · obtain ⟨r, spelled⟩ := place.trail.derivable_closed
    rw [groups] at spelled
    have read := Reader.read_derivation thompson ⟨0⟩ r (.unlimited r.depth)
    rw [spelled] at read
    have compiled : compile none (emptyGroups n) = .ok (r.build thompson ⟨0⟩).1 := by
      rw [compile, readPattern, emptyGroups, String.toList_ofList]
      exact read
    exact ⟨_, compiled⟩
  · intro deep
    cases n with
    | zero => contradiction
    | succ n =>
      have text : (emptyGroups (n + 1)).toList =
          List.replicate (n + 1) '(' ++ ')' :: List.replicate n ')' := String.toList_ofList
      have opened : last.focus = .opened := by
        rw [place.opened, List.getLast?_replicate]
        exact if_neg (Nat.succ_ne_zero n)
      exact overflows_of_opened text leads opened (by rwa [groups])

end Deep

end Thompson
