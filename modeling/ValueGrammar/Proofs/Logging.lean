import Mathlib.Logic.Basic
import ValueGrammar.Command.Action

/-!
# What actions log and give

`Logs a P Q` says that an action adds only lines with the property `P` to the log, whatever is in it
already, and gives only results with the property `Q`. Each action logs what its steps log. Which
result it gives does not depend on the log: `Gives a r` says that it is `r`.

Headlines:
* **`logs_bind`**: an action logs what its steps log.
* **`logs_parse`**, **`logs_expansion`**, **`logs_compile`**: the steps of the commands, and that
  none of them logs at the level of information.
* **`gives_bind`**: an action gives what its steps give.
* **`gives_parse`**, **`gives_symbols`**: reading an expression, and counting leaves.
-/

namespace ValueGrammar.Action

variable {α β : Type} {P : LogLine → Prop} {Q : α → Prop} {R : β → Prop}

/-! ## Steps -/

/-- **What an action adds to the log** has the property `P`; its result has the property `Q`. -/
def Logs (a : Action α) (P : LogLine → Prop) (Q : α → Prop) : Prop :=
  ∀ before, ∃ lines, (StateT.run a.run before).2 = before ++ lines ∧ (∀ l ∈ lines, P l) ∧
    ∀ x, (StateT.run a.run before).1 = .ok x → Q x

theorem run_bind (a : Action α) (f : α → Action β) (before : List LogLine) :
    StateT.run (a >>= f).run before = match StateT.run a.run before with
      | (.ok x, after) => StateT.run (f x).run after
      | (.error e, after) => (.error e, after) := by
  rw [ExceptT.run_bind, StateT.run_bind]
  rcases StateT.run a.run before with ⟨e | x, after⟩
  · rfl
  · rfl

theorem logs_mono {P' : LogLine → Prop} {a : Action α} (h : ∀ l, P l → P' l) (ha : Logs a P Q) :
    Logs a P' Q := by
  intro before
  obtain ⟨lines, hafter, hlines, hx⟩ := ha before
  exact ⟨lines, hafter, fun l hl => h l (hlines l hl), hx⟩

/-- An action logs what its steps log. -/
theorem logs_bind {a : Action α} {f : α → Action β} (ha : Logs a P Q)
    (hf : ∀ x, Q x → Logs (f x) P R) : Logs (a >>= f) P R := by
  intro before
  obtain ⟨lines, hafter, hlines, hx⟩ := ha before
  rw [run_bind]
  rcases hrun : StateT.run a.run before with ⟨e | x, after⟩
  · rw [hrun] at hafter
    exact ⟨lines, hafter, hlines, by rintro y ⟨⟩⟩
  · rw [hrun] at hafter hx
    obtain ⟨more, hmore, hP, hR⟩ := hf x (hx x rfl) after
    refine ⟨lines ++ more, ?_, List.forall_mem_append.mpr ⟨hlines, hP⟩, hR⟩
    rw [← List.append_assoc, ← hafter]
    exact hmore

theorem logs_pure {x : α} (h : Q x) : Logs (pure x) P Q :=
  fun before => ⟨[], (List.append_nil before).symm, List.forall_mem_nil _, by rintro y ⟨⟩; exact h⟩

theorem logs_log {lines : List LogLine} (h : ∀ l ∈ lines, P l) :
    Logs (log lines) P fun _ => True :=
  fun _ => ⟨lines, rfl, h, fun _ _ => trivial⟩

theorem logs_orFail {ε : Type} {failure : ε → Failure} {x : Except ε α} :
    Logs (orFail failure x) P fun a => x = .ok a := by
  intro before
  refine ⟨[], ?_, List.forall_mem_nil _, ?_⟩
  · cases x <;> exact (List.append_nil before).symm
  · cases x with
    | error e => rintro a ⟨⟩
    | ok a =>
      rintro b ⟨⟩
      rfl

/-! ## Lines of the commands -/

/-- Whether a line is not at the level of information. -/
abbrev IsNoInformation (l : LogLine) : Prop := l.level ≠ .info

theorem logs_parse (hP : ∀ l, IsNoInformation l → P l) (input : String) :
    Logs (parse input) P fun e => Expr.parse input = .ok e := by
  refine logs_bind logs_orFail fun p hp => ?_
  refine logs_bind
    (logs_log (List.forall_mem_map.mpr fun t _ => hP _ (by simp [LogLine.tokenRead])))
    fun _ _ => ?_
  refine logs_bind logs_orFail fun e he => ?_
  refine logs_bind (logs_log (List.forall_mem_singleton.mpr (hP _ (by simp [LogLine.parsed]))))
    fun _ _ => ?_
  refine logs_pure ?_
  rw [Expr.parse, hp]
  exact he

theorem logs_compile (hP : ∀ l, IsNoInformation l → P l) (e : Expr) (limits : Limits) :
    Logs (compile e limits) P fun c => c = e.compile limits := by
  refine logs_bind (logs_log (List.forall_mem_singleton.mpr (hP _ (by simp [LogLine.compiled]))))
    fun _ _ => logs_pure rfl

theorem logs_expansion (hP : ∀ l, IsNoInformation l → P l) (expression : String)
    (types : TypeTable) : Logs (expansion expression types) P fun text =>
      (types.expand expression).map Expansion.text = .ok text := by
  refine logs_bind (Q := fun x => types.expand expression = .ok x) ?_ fun x hx => ?_
  · refine logs_bind logs_orFail fun x hx => ?_
    refine logs_bind (logs_log (List.forall_mem_singleton.mpr (hP _ (by simp [LogLine.expanded]))))
      fun _ _ => ?_
    refine logs_bind (logs_log (List.forall_mem_map.mpr fun _ _ =>
      hP _ (by simp [LogLine.unknownType]))) fun _ _ => logs_pure hx
  · refine logs_pure ?_
    rw [hx]
    rfl

/-! ## Results -/

/-- **What an action gives**, whatever is in the log before it. -/
def Gives (a : Action α) (r : Except Failure α) : Prop :=
  ∀ before, (StateT.run a.run before).1 = r

theorem result_of_gives {a : Action α} {r : Except Failure α} (h : Gives a r) : a.result = r :=
  h []

theorem gives_pure (x : α) : Gives (pure x) (pure x) := fun _ => rfl

theorem gives_log (lines : List LogLine) : Gives (log lines) (pure ()) := fun _ => rfl

theorem gives_orFail {ε : Type} (failure : ε → Failure) (x : Except ε α) :
    Gives (orFail failure x) (x.mapError failure) := by
  intro before
  cases x <;> rfl

/-- An action gives what its steps give. -/
theorem gives_bind {a : Action α} {f : α → Action β} {r : Except Failure α}
    {s : α → Except Failure β} (ha : Gives a r) (hf : ∀ x, Gives (f x) (s x)) :
    Gives (a >>= f) (r >>= s) := by
  intro before
  have hr := ha before
  rw [run_bind]
  rcases hrun : StateT.run a.run before with ⟨e | x, after⟩
  · rw [hrun] at hr
    exact hr ▸ rfl
  · rw [hrun] at hr
    exact hr ▸ hf x after

theorem gives_mapM {f : α → Action β} {s : α → Except Failure β} (h : ∀ x, Gives (f x) (s x)) :
    ∀ xs : List α, Gives (xs.mapM f) (xs.mapM s)
  | [] => gives_pure []
  | x :: xs => by
    rw [List.mapM_cons, List.mapM_cons]
    exact gives_bind (h x) fun y => gives_bind (gives_mapM h xs) fun ys => gives_pure (y :: ys)

/-- Reading an expression gives what it denotes. -/
theorem gives_parse (input : String) :
    Gives (parse input) ((Expr.parse input).mapError Failure.parse) := by
  have hsteps : (Expr.parse input).mapError Failure.parse =
      (Parser.ofInput input).mapError Failure.parse >>= fun p => pure () >>= fun _ =>
        (p.perform Parser.whole).1.mapError Failure.parse >>= fun e => pure () >>= fun _ =>
          pure e := by
    simp only [pure_bind, bind_pure, Expr.parse]
    cases Parser.ofInput input <;> rfl
  rw [hsteps]
  refine gives_bind (gives_orFail _ _) fun p => gives_bind (gives_log _) fun _ => ?_
  exact gives_bind (gives_orFail _ _) fun e => gives_bind (gives_log _) fun _ => gives_pure e

/-- Expressions that can all be read are read one after another. -/
theorem mapM_parse : ∀ {expressions : List String},
    (∀ s ∈ expressions, ∃ e, Expr.parse s = .ok e) →
      expressions.mapM (fun s => (Expr.parse s).mapError Failure.parse) =
        .ok (expressions.map Expr.parseOrUnknown)
  | [], _ => rfl
  | s :: rest, h => by
    obtain ⟨⟨e, he⟩, hrest⟩ := List.forall_mem_cons.mp h
    rw [List.mapM_cons, mapM_parse hrest, List.map_cons, Expr.parseOrUnknown, he]
    rfl

theorem gives_symbols (expressions : List String) :
    Gives (symbols expressions)
      ((expressions.mapM fun s => (Expr.parse s).mapError Failure.parse) >>= fun trees =>
        pure ((SymbolTable.empty.collectAll trees).toJson.render .pretty)) :=
  gives_bind (gives_mapM gives_parse expressions) fun _ => gives_pure _

end ValueGrammar.Action
