import Calculator.Proofs.Readings
import Calculator.Proofs.Slices

/-!
# Records of a reader one lexeme ahead

A stream is read one lexeme ahead, and the record shows it. It begins with lexemes that were each
read and then taken, and with one more that was read and still waits, unless the word after the
last one taken is misspelled. Only after that comes what is done with an expression.

This form is all that has to be known of a record: what may follow what, and what is waiting at any
moment, are facts about lists of this form.

## Main definitions

* `Event.stage`: the stage of an evaluation in which an event happens.
* `lexedIn`, `takenIn`: the lexemes that were read, and taken, according to a record.
* `OneAhead`: the record of a reader that is one lexeme ahead.
* `Shape`: the form of a record.

## Main results

* `Shape.oneAhead`: every record of this form is that of a reader one lexeme ahead.
* `Shape.in_stages`: the stages are gone through in order if those after reading are.
-/

namespace Calculator

/-! ### Events -/

/-- The stages of an evaluation. -/
inductive Stage where
  | reading
  | leftover
  | parsed
  | applying
  | evaluated
  deriving DecidableEq

/-- The stages in the order in which they are gone through. -/
def Stage.rank : Stage → Nat
  | .reading => 0
  | .leftover => 1
  | .parsed => 2
  | .applying => 3
  | .evaluated => 4

namespace Event

/-- The stage in which an event happens. -/
def stage : Event → Stage
  | .lexed _ | .reachedEnd _ | .taken _ => .reading
  | .ignoredTrailing _ => .leftover
  | .parsed _ | .parsedComplete _ => .parsed
  | .applied _ _ _ _ => .applying
  | .evaluated _ => .evaluated

/-- The lexeme that was read, if the event says so. -/
def lexed? : Event → Option Lexeme
  | .lexed l => some l
  | _ => none

/-- The lexeme that was taken, if the event says so. -/
def taken? : Event → Option Lexeme
  | .taken l => some l
  | _ => none

/-- The event that records what was found. -/
def found (l : Lexeme) : Event :=
  if l.token = .endOfInput then .reachedEnd l.position else .lexed l

theorem stage_found (l : Lexeme) : (found l).stage = .reading := by
  by_cases h : l.token = .endOfInput <;> simp [found, h, stage]

theorem found_ne_taken (l m : Lexeme) : found l ≠ .taken m := by
  by_cases h : l.token = .endOfInput <;> simp [found, h]

theorem lexed?_found (l : Lexeme) :
    (found l).lexed? = if l.token = .endOfInput then none else some l := by
  by_cases h : l.token = .endOfInput <;> simp [found, h, lexed?]

theorem taken?_found (l : Lexeme) : (found l).taken? = none := by
  by_cases h : l.token = .endOfInput <;> simp [found, h, taken?]

theorem taken?_eq_some_iff {e : Event} {l : Lexeme} : e.taken? = some l ↔ e = .taken l := by
  cases e <;> simp [taken?]

/-- Only while the text is read are lexemes read and taken. -/
theorem lexed?_eq_none {e : Event} (h : e.stage ≠ .reading) :
    e.lexed? = none ∧ e.taken? = none := by
  cases e <;> simp_all [stage, lexed?, taken?]

end Event

/-- The lexemes that were read, in order. -/
def lexedIn (log : List Event) : List Lexeme := log.filterMap Event.lexed?

/-- The lexemes that were taken, in order. -/
def takenIn (log : List Event) : List Lexeme := log.filterMap Event.taken?

@[simp] theorem lexedIn_nil : lexedIn [] = [] := rfl

@[simp] theorem takenIn_nil : takenIn [] = [] := rfl

@[simp] theorem lexedIn_cons (e : Event) (log : List Event) :
    lexedIn (e :: log) = e.lexed?.toList ++ lexedIn log := by
  cases h : e.lexed? <;> simp [lexedIn, h]

@[simp] theorem takenIn_cons (e : Event) (log : List Event) :
    takenIn (e :: log) = e.taken?.toList ++ takenIn log := by
  cases h : e.taken? <;> simp [takenIn, h]

@[simp] theorem lexedIn_append (log others : List Event) :
    lexedIn (log ++ others) = lexedIn log ++ lexedIn others := List.filterMap_append

@[simp] theorem takenIn_append (log others : List Event) :
    takenIn (log ++ others) = takenIn log ++ takenIn others := List.filterMap_append

theorem mem_takenIn_iff {log : List Event} {l : Lexeme} : l ∈ takenIn log ↔ .taken l ∈ log := by
  simp [takenIn, Event.taken?_eq_some_iff]

theorem lexedIn_eq_nil {log : List Event} (h : ∀ e ∈ log, e.stage ≠ .reading) :
    lexedIn log = [] :=
  List.filterMap_eq_nil_iff.mpr fun e he => (Event.lexed?_eq_none (h e he)).1

theorem takenIn_eq_nil {log : List Event} (h : ∀ e ∈ log, e.stage ≠ .reading) :
    takenIn log = [] :=
  List.filterMap_eq_nil_iff.mpr fun e he => (Event.lexed?_eq_none (h e he)).2

/-- The record of a reader that is one lexeme ahead. -/
structure OneAhead (log : List Event) : Prop where
  /-- A lexeme is taken right after it was read. -/
  taken_after_lexed : ∀ before l after, log = before ++ .taken l :: after →
    ∃ earlier, before = earlier ++ [.lexed l]
  /-- At every moment one lexeme at most was read and not taken, the last one. -/
  waiting : ∀ before, before <+: log →
    ∃ ls, lexedIn before = takenIn before ++ ls ∧ ls.length ≤ 1
  lexed_in_order : (lexedIn log).Pairwise fun l m => l.position < m.position
  taken_in_order : (takenIn log).Pairwise fun l m => l.position < m.position
  /-- The end is met when every lexeme was taken, and then nothing is read or taken any more. -/
  end_is_last : ∀ before p after, log = before ++ .reachedEnd p :: after →
    lexedIn before = takenIn before ∧ ∀ e ∈ after, e.stage ≠ .reading

/-! ### The form of a record -/

/-- The record of lexemes each of which was read and then taken. -/
def passed (ls : List Lexeme) : List Event := ls.flatMap fun l => [.lexed l, .taken l]

@[simp] theorem passed_nil : passed [] = [] := rfl

@[simp] theorem passed_cons (l : Lexeme) (ls : List Lexeme) :
    passed (l :: ls) = .lexed l :: .taken l :: passed ls := rfl

theorem passed_concat (ls : List Lexeme) (l : Lexeme) :
    passed (ls ++ [l]) = passed ls ++ [.lexed l, .taken l] := by simp [passed]

@[simp] theorem lexedIn_passed (ls : List Lexeme) : lexedIn (passed ls) = ls := by
  induction ls with
  | nil => rfl
  | cons l ls ih => simp [Event.lexed?, ih]

@[simp] theorem takenIn_passed (ls : List Lexeme) : takenIn (passed ls) = ls := by
  induction ls with
  | nil => rfl
  | cons l ls ih => simp [Event.taken?, ih]

theorem stage_of_mem_passed {ls : List Lexeme} {e : Event} (h : e ∈ passed ls) :
    e.stage = .reading := by
  obtain ⟨l, -, he⟩ := List.mem_flatMap.mp h
  simp only [List.mem_cons, List.not_mem_nil, or_false] at he
  rcases he with rfl | rfl <;> rfl

/-- Where an event of such a record stands: a lexeme is read when all before it were taken, and it
is taken next. -/
theorem passed_eq_append_cons {ls : List Lexeme} {before after : List Event} {e : Event}
    (h : passed ls = before ++ e :: after) :
    ∃ (as : List Lexeme) (l : Lexeme),
      (before = passed as ∧ e = .lexed l) ∨ (before = passed as ++ [.lexed l] ∧ e = .taken l) := by
  induction ls generalizing before with
  | nil => simp at h
  | cons m ls ih =>
    rcases before with _ | ⟨d, _ | ⟨d', before⟩⟩ <;>
      simp only [passed_cons, List.nil_append, List.cons_append, List.cons.injEq] at h
    · exact ⟨[], m, .inl ⟨rfl, h.1.symm⟩⟩
    · obtain ⟨rfl, rfl, -⟩ := h
      exact ⟨[], m, .inr ⟨rfl, rfl⟩⟩
    · obtain ⟨rfl, rfl, htail⟩ := h
      obtain ⟨as, l, hl⟩ := ih htail
      refine ⟨m :: as, l, ?_⟩
      simpa using hl

/-- The form of the record of a text: first lexemes that were read and taken, which are the first
ones of the text; then one that was read and waits, if there is one; then other things. -/
structure Shape (text : String) (log : List Event) (ls : List Lexeme) (head : Option Lexeme)
    (others : List Event) : Prop where
  log_eq : log = passed ls ++ ((head.map Event.found).toList ++ others)
  isPrefix : (ls ++ head.toList).map .ok <+: readings text
  others_stage : ∀ e ∈ others, e.stage ≠ .reading

namespace Shape

variable {text : String} {log others : List Event} {ls : List Lexeme} {head : Option Lexeme}

/-- The lexeme that waits was read, unless it is the end of the input. -/
theorem lexedIn_rest (h : Shape text log ls head others) :
    lexedIn ((head.map Event.found).toList ++ others) =
      head.toList.filter fun l => l.token ≠ .endOfInput := by
  rw [lexedIn_append, lexedIn_eq_nil h.others_stage]
  rcases head with _ | l
  · rfl
  · by_cases hend : l.token = .endOfInput <;> simp [lexedIn, Event.lexed?_found, hend]

theorem takenIn_rest (h : Shape text log ls head others) :
    takenIn ((head.map Event.found).toList ++ others) = [] := by
  rw [takenIn_append, takenIn_eq_nil h.others_stage]
  cases head <;> simp [takenIn, Event.taken?_found]

theorem lexedIn_eq (h : Shape text log ls head others) :
    lexedIn log = ls ++ head.toList.filter fun l => l.token ≠ .endOfInput := by
  rw [h.log_eq, lexedIn_append, lexedIn_passed, h.lexedIn_rest]

theorem takenIn_eq (h : Shape text log ls head others) : takenIn log = ls := by
  rw [h.log_eq, takenIn_append, takenIn_passed, h.takenIn_rest, List.append_nil]

/-- The lexemes are found one after the other. -/
theorem pairwise (h : Shape text log ls head others) :
    (ls ++ head.toList).Pairwise fun l m => l.position < m.position := by
  have hmap := (pairwise_position_readings text).sublist h.isPrefix.sublist
  rwa [List.pairwise_map] at hmap

/-- A beginning of the record ends among the lexemes that were read and taken, or after them. -/
theorem cases_of_isPrefix (h : Shape text log ls head others) {before : List Event}
    (hbefore : before <+: log) :
    (∃ as, before = passed as) ∨ (∃ as l, before = passed as ++ [.lexed l]) ∨
      ∃ rest, before = passed ls ++ rest ∧ rest <+: (head.map Event.found).toList ++ others := by
  obtain ⟨after, hafter⟩ := hbefore
  rw [h.log_eq] at hafter
  rcases after with _ | ⟨e, after⟩
  · rw [List.append_nil] at hafter
    exact .inr (.inr ⟨_, hafter, List.prefix_rfl⟩)
  · rcases append_eq_append_cons hafter.symm with ⟨es, hpassed⟩ | ⟨rest, rfl, hrest⟩
    · obtain ⟨as, l, ⟨rfl, -⟩ | ⟨rfl, -⟩⟩ := passed_eq_append_cons hpassed
      · exact .inl ⟨as, rfl⟩
      · exact .inr (.inl ⟨as, l, rfl⟩)
    · exact .inr (.inr ⟨rest, rfl, _, hrest.symm⟩)

/-- An event of reading is among the lexemes that were read and taken, or it is the last one. -/
theorem cases_of_reading (h : Shape text log ls head others) {before after : List Event} {e : Event}
    (hlog : log = before ++ e :: after) (he : e.stage = .reading) :
    (∃ as l, before = passed as ∧ e = .lexed l) ∨
      (∃ as l, before = passed as ++ [.lexed l] ∧ e = .taken l) ∨
      ∃ l, head = some l ∧ e = .found l ∧ before = passed ls ∧ after = others := by
  rw [h.log_eq] at hlog
  rcases append_eq_append_cons hlog with ⟨es, hpassed⟩ | ⟨rest, rfl, hrest⟩
  · obtain ⟨as, l, hl | hl⟩ := passed_eq_append_cons hpassed
    · exact .inl ⟨as, l, hl⟩
    · exact .inr (.inl ⟨as, l, hl⟩)
  · -- of what comes after the passed lexemes, only the first event can be one of reading
    have hnot : e ∉ others := fun hmem => h.others_stage e hmem he
    rcases append_eq_append_cons hrest with ⟨es, hhead⟩ | ⟨es, rfl, hothers⟩
    · rcases head with _ | l
      · simp at hhead
      · rcases rest with _ | ⟨d, rest⟩
        · obtain ⟨rfl, rfl⟩ := List.cons.inj hrest
          exact .inr (.inr ⟨l, rfl, rfl, List.append_nil _, rfl⟩)
        · simp at hhead
    · exact absurd (by simp [hothers]) hnot

theorem mem_iff (h : Shape text log ls head others) {e : Event} :
    e ∈ log ↔ e ∈ passed ls ∨ (∃ l, head = some l ∧ e = .found l) ∨ e ∈ others := by
  rw [h.log_eq, List.mem_append, List.mem_append]
  cases head <;> simp

theorem stage_of_mem (h : Shape text log ls head others) {e : Event} (he : e ∈ log) :
    e.stage = .reading ∨ e ∈ others := by
  rcases h.mem_iff.mp he with hpassed | ⟨l, -, rfl⟩ | hothers
  · exact .inl (stage_of_mem_passed hpassed)
  · exact .inl (Event.stage_found l)
  · exact .inr hothers

/-- After reading there are the other things. -/
theorem mem_others (h : Shape text log ls head others) {e : Event} (he : e.stage ≠ .reading) :
    e ∈ log ↔ e ∈ others :=
  ⟨fun hmem => (h.stage_of_mem hmem).resolve_left he, fun hmem => h.mem_iff.mpr (.inr (.inr hmem))⟩

theorem lexed_isPrefix (h : Shape text log ls head others) :
    (lexedIn log).map .ok <+: Calculator.readings text := by
  refine List.IsPrefix.trans (List.IsPrefix.map _ ?_) h.isPrefix
  rw [h.lexedIn_eq]
  refine (List.prefix_append_right_inj ls).mpr ?_
  rcases head with _ | l
  · exact List.prefix_rfl
  · by_cases hend : l.token = .endOfInput <;> simp [hend]

/-- The stages are in order if those after reading are. -/
theorem in_stages (h : Shape text log ls head others)
    (hothers : others.Pairwise fun d e => d.stage.rank ≤ e.stage.rank) :
    log.Pairwise fun d e => d.stage.rank ≤ e.stage.rank := by
  have hreading : ∀ e ∈ passed ls ++ (head.map Event.found).toList, e.stage = .reading := by
    intro e he
    rcases List.mem_append.mp he with he | he
    · exact stage_of_mem_passed he
    · obtain ⟨l, -, rfl⟩ : ∃ l, head = some l ∧ .found l = e := by simpa using he
      exact Event.stage_found l
  rw [h.log_eq, ← List.append_assoc]
  refine List.pairwise_append.mpr ⟨?_, hothers, fun d hd e _ => ?_⟩
  · exact List.pairwise_of_forall_mem_list fun d hd e _ => by simp [hreading d hd, Stage.rank]
  · simp [hreading d hd, Stage.rank]

/-- What happens in a stage after reading is what happens in it among the other things. -/
theorem filter_stage (h : Shape text log ls head others) {stage : Stage}
    (hstage : stage ≠ .reading) :
    log.filter (·.stage = stage) = others.filter (·.stage = stage) := by
  have hpassed : (passed ls).filter (·.stage = stage) = [] :=
    List.filter_eq_nil_iff.mpr fun e he => by simp [stage_of_mem_passed he, hstage.symm]
  have hhead : (head.map Event.found).toList.filter (·.stage = stage) = [] := by
    cases head <;> simp [Event.stage_found, hstage.symm]
  rw [h.log_eq, List.filter_append, List.filter_append, hpassed, hhead, List.nil_append,
    List.nil_append]

/-- The lexeme that waits is the one that was read last and is never taken, unless it is the end of
the input. -/
theorem waits_iff {l : Lexeme} (h : Shape text log ls (some l) others) {m : Lexeme} :
    (lexedIn log).getLast? = some m ∧ .taken m ∉ log ↔ l = m ∧ l.token ≠ .endOfInput := by
  rw [← mem_takenIn_iff, h.lexedIn_eq, h.takenIn_eq]
  by_cases hend : l.token = .endOfInput
  · have hmem : ls.getLast? = some m → m ∈ ls := List.mem_of_getLast?
    simpa [hend] using hmem
  · have hnot : l ∉ ls := fun hmem => by
      have hlt := (List.pairwise_append.mp h.pairwise).2.2 l hmem l (by simp)
      exact absurd hlt (Nat.lt_irrefl _)
    have hkeep : (some l).toList.filter (fun l => l.token ≠ .endOfInput) = [l] := by simp [hend]
    rw [hkeep, List.getLast?_concat, Option.some.injEq]
    exact ⟨fun hm => ⟨hm.1, hend⟩, fun hm => ⟨hm.1, hm.1 ▸ hnot⟩⟩

/-- **A record of this form is that of a reader one lexeme ahead.** -/
theorem oneAhead (h : Shape text log ls head others) : OneAhead log where
  taken_after_lexed before l after hlog := by
    rcases h.cases_of_reading hlog rfl with
      ⟨as, m, -, htaken⟩ | ⟨as, m, rfl, htaken⟩ | ⟨m, -, htaken, -⟩
    · cases htaken
    · cases htaken
      exact ⟨passed as, rfl⟩
    · exact absurd htaken.symm (Event.found_ne_taken m l)
  waiting before hbefore := by
    rcases h.cases_of_isPrefix hbefore with ⟨as, rfl⟩ | ⟨as, l, rfl⟩ | ⟨rest, rfl, hrest⟩
    · exact ⟨[], by simp, by simp⟩
    · exact ⟨[l], by simp [Event.lexed?, Event.taken?], by simp⟩
    · have htaken : takenIn rest <+: takenIn _ := hrest.filterMap Event.taken?
      have hlexed : lexedIn rest <+: lexedIn _ := hrest.filterMap Event.lexed?
      rw [h.takenIn_rest] at htaken
      rw [h.lexedIn_rest] at hlexed
      refine ⟨lexedIn rest, by simp [List.prefix_nil.mp htaken], ?_⟩
      refine hlexed.length_le.trans ((List.length_filter_le _ _).trans ?_)
      cases head <;> simp
  lexed_in_order := by
    rw [h.lexedIn_eq]
    exact h.pairwise.sublist (List.filter_sublist.append_left ls)
  taken_in_order := by
    rw [h.takenIn_eq]
    exact h.pairwise.sublist (List.sublist_append_left _ _)
  end_is_last before p after hlog := by
    rcases h.cases_of_reading hlog rfl with
      ⟨as, m, -, hend⟩ | ⟨as, m, -, hend⟩ | ⟨m, -, -, rfl, rfl⟩
    · cases hend
    · cases hend
    · exact ⟨by simp, h.others_stage⟩

end Shape

end Calculator
