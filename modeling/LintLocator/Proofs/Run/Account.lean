import LintLocator.Run.Work

/-!
# Accounts of work

A piece of work leaves a trace in which calls, entries of the log and written lines are mixed.  An
`Account` keeps what others see of it: the result, the linters started and the lines written.  The
past of a piece of work counts only by the calls in it, so what comes of the work is a function from
the calls made before to an account: `Work.Yields`.

* `Account.andThen`: one thing after the other, which the first failure ends;
* `Account.inTurn`: the same for the members of a list, whose results are put together by an
  operation;
* `Yields.bind`, `Yields.inTurn`: work yields its accounts step by step.
-/

namespace LintLocator

/-- What others see of a piece of work: its result, the linters that it has started, and the lines
that it has written. -/
structure Account (α : Type) where
  result : Except Failure α
  calls : List LinterCall
  lines : List String

/-- What others see of progress.  The log is left out. -/
def Progress.account {α : Type} (p : Progress α) : Account α :=
  ⟨p.result, p.calls, p.trace.filterMap RunEvent.text?⟩

variable {α β σ : Type}

namespace Account

/-- Nothing has been done, and the result is there. -/
def done (a : α) : Account α := ⟨.ok a, [], []⟩

/-- Nothing has been done, and there is a failure. -/
def failed (f : Failure) : Account α := ⟨.error f, [], []⟩

/-- The same account with another result. -/
def map (g : α → β) (a : Account α) : Account β := ⟨a.result.map g, a.calls, a.lines⟩

/-- One thing after the other.  A failure of the first is the end, and what it has done stays. -/
def andThen (a : Account α) (next : α → Account β) : Account β :=
  match a.result with
  | .error f => ⟨.error f, a.calls, a.lines⟩
  | .ok x => ⟨(next x).result, a.calls ++ (next x).calls, a.lines ++ (next x).lines⟩

/-- The members of a list in turn, each of which is told the calls made before it.  The first
failure is the end.  Otherwise the results are put together. -/
def inTurn (op : β → β → β) (e : β) (f : List LinterCall → σ → Account β) :
    List LinterCall → List σ → Account β
  | _, [] => done e
  | before, x :: xs =>
    (f before x).andThen fun b => (inTurn op e f (before ++ (f before x).calls) xs).map (op b)

theorem inTurn_nil (op : β → β → β) (e : β) (f : List LinterCall → σ → Account β)
    (before : List LinterCall) : inTurn op e f before [] = done e := rfl

theorem inTurn_cons (op : β → β → β) (e : β) (f : List LinterCall → σ → Account β)
    (before : List LinterCall) (x : σ) (xs : List σ) :
    inTurn op e f before (x :: xs) =
      (f before x).andThen fun b =>
        (inTurn op e f (before ++ (f before x).calls) xs).map (op b) := rfl

@[simp] theorem lines_map (g : α → β) (a : Account α) : (a.map g).lines = a.lines := rfl

theorem andThen_of_ok {a : Account α} {x : α} (h : a.result = .ok x) (next : α → Account β) :
    a.andThen next =
      ⟨(next x).result, a.calls ++ (next x).calls, a.lines ++ (next x).lines⟩ := by
  rw [andThen, h]

theorem andThen_of_error {a : Account α} {f : Failure} (h : a.result = .error f)
    (next : α → Account β) : a.andThen next = ⟨.error f, a.calls, a.lines⟩ := by
  rw [andThen, h]

@[simp] theorem done_andThen (x : α) (next : α → Account β) : (done x).andThen next = next x := rfl

/-- One thing after the other succeeds when both do. -/
theorem result_andThen_eq_ok_iff {a : Account α} {next : α → Account β} {b : β} :
    (a.andThen next).result = .ok b ↔ ∃ x, a.result = .ok x ∧ (next x).result = .ok b := by
  cases ha : a.result with
  | error f => simp [andThen_of_error ha]
  | ok x => simp [andThen_of_ok ha]

theorem result_map_eq_ok_iff {g : α → β} {a : Account α} {b : β} :
    (a.map g).result = .ok b ↔ ∃ x, a.result = .ok x ∧ g x = b := by
  cases ha : a.result <;> simp [map, ha, Except.map]

/-- Only what a first result leads to matters for what comes behind it. -/
theorem andThen_congr {a : Account α} {next next' : α → Account β}
    (h : ∀ x, a.result = .ok x → next x = next' x) : a.andThen next = a.andThen next' := by
  cases ha : a.result with
  | error f => rw [andThen_of_error ha, andThen_of_error ha]
  | ok x => rw [andThen_of_ok ha, andThen_of_ok ha, h x ha]

theorem andThen_done (a : Account α) (g : α → β) : (a.andThen fun x => done (g x)) = a.map g := by
  cases ha : a.result with
  | error f => rw [andThen_of_error ha, map, ha]; rfl
  | ok x => rw [andThen_of_ok ha, map, ha]; simp [done, Except.map]

section InTurn

variable {op : β → β → β} {e : β} {f : List LinterCall → σ → Account β}

/-- A neutral element changes no result. -/
theorem map_eq_self {g : β → β} (h : ∀ b, g b = b) (a : Account β) : a.map g = a := by
  obtain ⟨result, calls, lines⟩ := a
  cases result with
  | error f => rfl
  | ok b => simp only [map, Except.map, h]

theorem inTurn_singleton [Std.LawfulRightIdentity op e] (before : List LinterCall) (x : σ) :
    inTurn op e f before [x] = f before x := by
  have hdone : (inTurn op e f before [x]) = (f before x).andThen fun b => done (op b e) := rfl
  rw [hdone, andThen_done, map_eq_self Std.LawfulRightIdentity.right_id]

/-- What comes first in a list is done first. -/
theorem inTurn_append [Std.Associative op] [Std.LawfulLeftIdentity op e]
    (before : List LinterCall) (xs ys : List σ) :
    inTurn op e f before (xs ++ ys) =
      (inTurn op e f before xs).andThen fun b =>
        (inTurn op e f (before ++ (inTurn op e f before xs).calls) ys).map (op b) := by
  induction xs generalizing before with
  | nil =>
    rw [List.nil_append, inTurn_nil, done_andThen, map_eq_self Std.LawfulLeftIdentity.left_id]
    simp only [done, List.append_nil]
  | cons x xs ih =>
    rw [List.cons_append, inTurn_cons, inTurn_cons, ih]
    -- a failure may come from the first member, from the others or from behind them
    cases hx : (f before x).result with
    | error g => rw [andThen_of_error hx, andThen_of_error hx, andThen_of_error rfl]
    | ok b =>
      rw [andThen_of_ok hx, andThen_of_ok hx]
      cases hxs : (inTurn op e f (before ++ (f before x).calls) xs).result with
      | error g =>
        rw [andThen_of_error hxs, andThen_of_error (by rw [map, hxs]; rfl)]
        rfl
      | ok c =>
        rw [andThen_of_ok hxs, andThen_of_ok (x := op b c) (by rw [map, hxs]; rfl)]
        simp only [map, List.append_assoc, mk.injEq, and_self, and_true]
        cases (inTurn op e f _ ys).result with
        | error g => rfl
        | ok d => simp only [Except.map, Std.Associative.assoc]

/-- Where members do not ask for the calls made before, these do not matter. -/
theorem inTurn_const {f : σ → Account β} (before before' : List LinterCall) (xs : List σ) :
    inTurn op e (fun _ => f) before xs = inTurn op e (fun _ => f) before' xs := by
  induction xs generalizing before before' with
  | nil => rfl
  | cons x xs ih =>
    rw [inTurn_cons, inTurn_cons]
    exact andThen_congr fun b _ => congrArg (map (op b)) (ih _ _)

end InTurn

end Account

namespace Work

theorem pure_bind (a : α) (next : α → Work β) : Pure.pure a >>= next = next a := by
  funext past
  have hresult : ((Pure.pure a : Work α) past).result = .ok a := rfl
  rw [bind_apply_of_ok hresult, pure_apply, List.append_nil, List.nil_append]

/-- Traces are appended, so it does not matter how work is put together. -/
theorem bind_assoc {γ : Type} (w : Work α) (g : α → Work β) (k : β → Work γ) :
    w >>= g >>= k = w >>= fun a => g a >>= k := by
  funext past
  show bind (bind w g) k past = bind w (fun a => bind (g a) k) past
  cases hw : (w past).result with
  | error f => simp only [bind, hw]
  | ok a =>
    cases hg : (g a (past ++ (w past).trace)).result with
    | error f => simp only [bind, hw, hg]
    | ok b => simp only [bind, hw, hg, List.append_assoc]

/-- The first member of a list is taken care of first. -/
theorem each_cons_bind {γ : Type} (f : α → Work β) (a : α) (as : List α) (k : List β → Work γ) :
    each f (a :: as) >>= k = f a >>= fun b => each f as >>= fun bs => k (b :: bs) := by
  rw [each, bind_assoc]
  congr 1
  funext b
  rw [bind_assoc]
  simp only [pure_bind]

/-- The account of the work is determined by the calls made before it. -/
def Yields (w : Work α) (r : List LinterCall → Account α) : Prop :=
  ∀ past, (w past).account = r (RunEvent.calls past)

namespace Yields

variable {w : Work α} {r : List LinterCall → Account α}

theorem congr {r' : List LinterCall → Account α} (h : Yields w r)
    (hr : ∀ before, r before = r' before) : Yields w r' := fun past =>
  (h past).trans (hr _)

theorem pure (a : α) : Yields (Pure.pure a : Work α) fun _ => .done a := fun _ => rfl

theorem fail (f : Failure) : Yields (Work.fail f : Work α) fun _ => .failed f := fun _ => rfl

theorem note (entry : LogEntry) : Yields (Work.note entry) fun _ => .done () := fun _ => rfl

theorem started (call : LinterCall) :
    Yields (Work.doing (.started call)) fun _ => ⟨.ok (), [call], []⟩ := fun _ => rfl

theorem wrote (text : String) :
    Yields (Work.doing (.wrote text)) fun _ => ⟨.ok (), [], [text]⟩ := fun _ => rfl

theorem calls : Yields Work.calls fun before => ⟨.ok before, [], []⟩ := fun _ => rfl

theorem ofExcept (result : Except Failure α) :
    Yields (Work.ofExcept result) fun _ => ⟨result, [], []⟩ := by
  intro past
  cases result with
  | error f => rfl
  | ok a => rfl

/-- Of an outcome, the log is left out. -/
theorem ofOutcome (outcome : Outcome Failure α) :
    Yields (Work.ofOutcome outcome) fun _ => ⟨outcome.result, [], []⟩ := by
  intro past
  have hcalls : (outcome.log.map RunEvent.noted).filterMap RunEvent.call? = [] := by
    simp [RunEvent.call?]
  have hlines : (outcome.log.map RunEvent.noted).filterMap RunEvent.text? = [] := by
    simp [RunEvent.text?]
  show (⟨_, _, _⟩ : Account α) = _
  rw [Progress.calls, RunEvent.calls, Work.ofOutcome, hcalls, hlines]

/-- What comes behind some work is told the calls of this work as well. -/
theorem bind {next : α → Work β} {k : α → List LinterCall → Account β} (h : Yields w r)
    (h' : ∀ a, Yields (next a) (k a)) :
    Yields (w >>= next) fun before =>
      (r before).andThen fun a => k a (before ++ (r before).calls) := by
  intro past
  show _ = (r (RunEvent.calls past)).andThen fun a =>
    k a (RunEvent.calls past ++ (r (RunEvent.calls past)).calls)
  have hw := h past
  have hresult : (w past).result = (r (RunEvent.calls past)).result := congrArg Account.result hw
  have hcalls : RunEvent.calls (w past).trace = (r (RunEvent.calls past)).calls :=
    congrArg Account.calls hw
  cases ha : (w past).result with
  | error f =>
    rw [bind_apply_of_error ha, Account.andThen_of_error (hresult.symm.trans ha), ← hw]
    rfl
  | ok a =>
    have hnext := h' a (past ++ (w past).trace)
    rw [RunEvent.calls_append, hcalls] at hnext
    rw [bind_apply_of_ok ha, Account.andThen_of_ok (hresult.symm.trans ha), ← hnext, ← hw]
    simp only [Progress.account, Progress.calls, RunEvent.calls_append, List.filterMap_append]

/-- The result of some work can be changed afterwards. -/
theorem bind_pure (h : Yields w r) (g : α → β) :
    Yields (w >>= fun a => Pure.pure (g a)) fun before => (r before).map g := by
  have hbind := h.bind fun a => pure (g a)
  simpa only [Account.andThen_done] using hbind

/-- A failure is seen from an activity around the work. -/
theorem within (h : Yields w r) (a : Activity) :
    Yields (w.within a) fun before =>
      ⟨(r before).result.mapError (Failure.within a), (r before).calls, (r before).lines⟩ := by
  intro past
  show _ = (⟨(r (RunEvent.calls past)).result.mapError (Failure.within a), _, _⟩ : Account α)
  rw [← h past]
  cases hresult : (w past).result with
  | error f =>
    have hwithin : w.within a past = ⟨.error (f.within a), (w past).trace⟩ := by
      simp only [Work.within, hresult]
    rw [hwithin, Progress.account, Progress.account, hresult]
    rfl
  | ok b =>
    have hwithin : w.within a past = w past := by simp only [Work.within, hresult]
    rw [hwithin, Progress.account, hresult]
    rfl

/-- Doing the same for every member of a list yields the accounts of its members in turn.  Each
member may itself stand for a list of smaller steps. -/
theorem inTurn {op : β → β → β} {e : β} [Std.Associative op] [Std.LawfulLeftIdentity op e]
    {τ : Type} {f : List LinterCall → σ → Account β} {steps : τ → List σ} {each : τ → Work β}
    (h : ∀ t, Yields (each t) fun before => .inTurn op e f before (steps t)) (ts : List τ) :
    Yields (Work.each each ts >>= fun bs => Pure.pure (bs.foldr op e)) fun before =>
      .inTurn op e f before (ts.flatMap steps) := by
  induction ts with
  | nil => exact pure e
  | cons t ts ih =>
    have hsplit : (Work.each each (t :: ts) >>= fun bs => Pure.pure (bs.foldr op e)) =
        each t >>= fun b =>
          (Work.each each ts >>= fun bs => Pure.pure (bs.foldr op e)) >>= fun c =>
            Pure.pure (op b c) := by
      rw [each_cons_bind]
      congr 1
      funext b
      rw [bind_assoc]
      simp only [pure_bind, List.foldr_cons]
    rw [hsplit]
    simp only [List.flatMap_cons, Account.inTurn_append]
    exact (h t).bind fun b => ih.bind_pure (op b)

end Yields

end Work
end LintLocator
