import OddBuilder.Chat.JinjaRuns

/-!
# Variable scopes

What a run of the machine does to its scopes. An expression changes none of them and a
statement only the innermost, so every round of a `for` begins from the scopes that
the loop began from.
-/

namespace JobTokenizer.JinjaVM

variable {D : Type} {vm : JinjaVM D}
variable {α β : Type} {x : Vm D α} {s : VmState D} {body : Vm D Unit} {f : α → Vm D β}

theorem run_bind {s' : VmState D} {b : β} (h : ((x >>= f) s).result = some (b, s')) :
    ∃ a state, (x s).result = some (a, state) ∧ (f a state).result = some (b, s') := by
  have hbind : ((x >>= f) s).result = (x s).result.bind fun r => (f r.1 r.2).result :=
    Traced.result_bind _ _
  rw [hbind] at h
  obtain ⟨⟨a, state⟩, hx, hf⟩ := Option.bind_eq_some_iff.mp h
  exact ⟨a, state, hx, hf⟩

theorem run_lift {x : Traced IntStep α} {s' : VmState D} {a : α}
    (h : ((liftM x : Vm D α) s).result = some (a, s')) : s' = s := by
  have hbind : ((liftM x : Vm D α) s).result = x.result.bind fun a => some (a, s) :=
    Traced.result_bind _ _
  rw [hbind] at h
  obtain ⟨a', -, h⟩ := Option.bind_eq_some_iff.mp h
  exact (Prod.mk.inj (Option.some.inj h)).2.symm

/-- A computation that changes no scope. -/
def KeepsScopes {α : Type} (x : Vm D α) : Prop :=
  ∀ s a s', (x s).result = some (a, s') → s'.scopes = s.scopes

theorem keepsScopes_of_eq {f : VmState D → α × VmState D} (hx : ∀ s, x s = pure (f s))
    (hf : ∀ s, (f s).2.scopes = s.scopes) : KeepsScopes x := by
  intro s a s' h
  rw [hx] at h
  have hs : f s = (a, s') := Option.some.inj h
  rw [← hf s, hs]

theorem keepsScopes_pure (a : α) : KeepsScopes (pure a : Vm D α) :=
  keepsScopes_of_eq (f := fun s => (a, s)) (fun _ => rfl) fun _ => rfl

theorem keepsScopes_bind (hx : KeepsScopes x) (hf : ∀ a, KeepsScopes (f a)) :
    KeepsScopes (x >>= f) := by
  intro s b s' h
  obtain ⟨a, state, hresult, hresult'⟩ := run_bind h
  exact (hf a state b s' hresult').trans (hx s a state hresult)

theorem keepsScopes_lift (x : Traced IntStep α) : KeepsScopes (liftM x : Vm D α) :=
  fun _ _ _ h => congrArg VmState.scopes (run_lift h)

theorem exprInvariant_keepsScopes (vm : JinjaVM D) : ExprInvariant vm KeepsScopes where
  pure := keepsScopes_pure
  bind := keepsScopes_bind
  get := keepsScopes_of_eq (f := fun s => (s, s)) (fun _ => rfl) fun _ => rfl
  setLast value :=
    keepsScopes_of_eq (f := fun s => ((), { s with lastExpressionValue := value })) (fun _ => rfl)
      fun _ => rfl
  traced :=
    { pure := fun a => keepsScopes_lift (pure a)
      bind := fun {_ _ x f} _ _ => keepsScopes_lift (x >>= f)
      perform := fun s _ => keepsScopes_lift s.perform
      function := fun _ function _ posArgs kwArgs => keepsScopes_lift (function posArgs kwArgs) }

/-- A computation that changes at most the innermost scope. -/
def KeepsOuter {α : Type} (x : Vm D α) : Prop :=
  ∀ s a s' inner outer, s.scopes = inner :: outer → (x s).result = some (a, s') →
    ∃ inner', s'.scopes = inner' :: outer

theorem KeepsScopes.keepsOuter (h : KeepsScopes x) : KeepsOuter x :=
  fun s a s' inner _ hs hresult => ⟨inner, (h s a s' hresult).trans hs⟩

theorem keepsOuter_bind (hx : KeepsOuter x) (hf : ∀ a, KeepsOuter (f a)) : KeepsOuter (x >>= f) := by
  intro s b s' inner outer hs h
  obtain ⟨a, state, hresult, hresult'⟩ := run_bind h
  obtain ⟨inner', hstate⟩ := hx s a state inner outer hs hresult
  exact hf a state b s' inner' outer hstate hresult'

/-- Behind its scope a computation has changed nothing of what was there before. -/
theorem inScope_scopes {inner : Vm D Unit} (h : KeepsOuter inner) : KeepsScopes (inScope inner) := by
  intro s a s' hresult
  obtain ⟨_, pushed, hpush, hrest⟩ := run_bind hresult
  obtain ⟨_, left, hinner, hpop⟩ := run_bind hrest
  have hpushed : pushed = { s with scopes := [] :: s.scopes } :=
    (Prod.mk.inj (Option.some.inj hpush)).2.symm
  have hs' : s' = { left with scopes := left.scopes.tail } :=
    (Prod.mk.inj (Option.some.inj hpop)).2.symm
  obtain ⟨scope, hleft⟩ := h pushed _ left [] s.scopes (by rw [hpushed]) hinner
  rw [hs', hleft]
  rfl

theorem stmtInvariant_keepsOuter (vm : JinjaVM D) : StmtInvariant vm KeepsOuter where
  pure a := (keepsScopes_pure a).keepsOuter
  bind := keepsOuter_bind
  get := (exprInvariant_keepsScopes vm).get.keepsOuter
  setLast value := ((exprInvariant_keepsScopes vm).setLast value).keepsOuter
  traced :=
    { pure := fun a => (keepsScopes_lift (pure a)).keepsOuter
      bind := fun {_ _ x f} _ _ => (keepsScopes_lift (x >>= f)).keepsOuter
      perform := fun s _ => (keepsScopes_lift s.perform).keepsOuter
      function := fun _ function _ posArgs kwArgs =>
        (keepsScopes_lift (function posArgs kwArgs)).keepsOuter }
  appendOutput text :=
    KeepsScopes.keepsOuter (keepsScopes_of_eq
      (f := fun s => ((), { s with outputBuffer := s.outputBuffer ++ text })) (fun _ => rfl)
      fun _ => rfl)
  setVariable name value := by
    intro s a s' inner outer hs hresult
    have hs' : s' = { s with scopes := setIn name value s.scopes } :=
      (Prod.mk.inj (Option.some.inj hresult)).2.symm
    rw [hs', hs]
    exact ⟨_, rfl⟩
  inScope h := (inScope_scopes h).keepsOuter

/-- The scope that a round of a `for` begins with. -/
def roundScope (targets : List Text) (items : List (Value D)) (i : Nat) : ValueMap D :=
  (bindings targets ((items[i]?).getD .none)).foldl (fun scope entry => scope.insert entry.1 entry.2)
    [(ascii "loop", loopValue items i)]

theorem setVariables_run (rest : List (Text × Value D)) :
    ∀ (s : VmState D) (inner : ValueMap D) (outer : List (ValueMap D)), s.scopes = inner :: outer →
      setVariables rest s =
        pure ((), { s with
          scopes := rest.foldl (fun scope entry => scope.insert entry.1 entry.2) inner :: outer }) := by
  induction rest with
  | nil =>
    intro s inner outer hs
    rw [List.foldl_nil, ← hs]
    rfl
  | cons entry rest ih =>
    intro s inner outer hs
    have hset : setVariables (entry :: rest) s =
        setVariables rest { s with scopes := setIn entry.1 entry.2 s.scopes } := rfl
    rw [hset, hs]
    exact ih _ _ outer rfl

/-- A round runs the body with the variables of the round in front of the scopes that are there. -/
theorem iteration_eq (targets : List Text) (items : List (Value D)) (body : Vm D Unit) (i : Nat)
    (s : VmState D) :
    iteration targets items body i s =
      body { s with scopes := roundScope targets items i :: s.scopes } >>= fun left =>
        pure ((), { left.2 with scopes := left.2.scopes.tail }) := by
  have hround : iteration targets items body i s =
      (setVariables (bindings targets ((items[i]?).getD .none))
          { s with scopes := [(ascii "loop", loopValue items i)] :: s.scopes } >>= fun begun =>
        body begun.2) >>= fun left => pure ((), { left.2 with scopes := left.2.scopes.tail }) := rfl
  rw [hround, setVariables_run _ _ _ s.scopes rfl]
  rfl

/-- A round leaves the scopes that it found, and what it sets is gone with its own scope. -/
theorem iteration_result (targets : List Text) (items : List (Value D)) (hbody : KeepsOuter body)
    (i : Nat) (s : VmState D) :
    (iteration targets items body i s).result =
      (body { s with scopes := roundScope targets items i :: s.scopes }).result.map fun left =>
        ((), { left.2 with scopes := s.scopes }) := by
  rw [iteration_eq, Traced.result_bind]
  cases hleft : (body { s with scopes := roundScope targets items i :: s.scopes }).result with
  | none => rfl
  | some left =>
    obtain ⟨inner, hscopes⟩ := hbody _ left.1 left.2 _ _ rfl hleft
    rw [Option.bind_some, hscopes]
    rfl

theorem iteration_scopes (targets : List Text) (items : List (Value D)) (hbody : KeepsOuter body)
    (i : Nat) : KeepsScopes (iteration targets items body i) := by
  intro s a s' h
  rw [iteration_result targets items hbody] at h
  obtain ⟨left, -, hs'⟩ := Option.map_eq_some_iff.mp h
  rw [← (Prod.mk.inj hs').2]

/-- Every round begins from the scopes that the loop began from. -/
theorem iterations_scopes (targets : List Text) (items : List (Value D)) (hbody : KeepsOuter body) :
    ∀ n, KeepsScopes (iterations targets items body n)
  | 0 => keepsScopes_pure ()
  | n + 1 => keepsScopes_bind (iterations_scopes targets items hbody n) fun _ =>
    iteration_scopes targets items hbody n

/-- The round behind others runs the body from the scopes before the loop. -/
theorem iterations_succ (targets : List Text) (items : List (Value D)) (hbody : KeepsOuter body)
    {i : Nat} {begun reached : VmState D}
    (h : (iterations targets items body i begun).result = some ((), reached)) :
    (iterations targets items body (i + 1) begun).result =
      (body { reached with scopes := roundScope targets items i :: begun.scopes }).result.map
        fun left => ((), { left.2 with scopes := begun.scopes }) := by
  have hbind : (iterations targets items body (i + 1) begun).result =
      (iterations targets items body i begun).result.bind fun r =>
        (iteration targets items body i r.2).result := Traced.result_bind _ _
  rw [hbind, h, Option.bind_some, iteration_result targets items hbody,
    iterations_scopes targets items hbody i begun _ _ h]

/-- The rounds of a `for` that has items. -/
theorem visitStmt_forNode (vm : JinjaVM D) (pos : Position) (targets : List Text)
    (iterable : ExprNode D) (body elseBody : Option (BodyNode D)) {begun : VmState D}
    (h : (visitExpr vm iterable s).result = some ((), begun))
    (hitems : itemsOf vm.platform begun.lastExpressionValue ≠ []) :
    (visitStmt vm (.forNode pos targets (some iterable) body elseBody) s).result =
      (iterations targets (itemsOf vm.platform begun.lastExpressionValue) (visitOption vm body)
        (itemsOf vm.platform begun.lastExpressionValue).length begun).result := by
  have hbind : (visitStmt vm (.forNode pos targets (some iterable) body elseBody) s).result =
      (visitExpr vm iterable s).result.bind fun r =>
        ((if (itemsOf vm.platform r.2.lastExpressionValue).isEmpty then visitOption vm elseBody
          else iterations targets (itemsOf vm.platform r.2.lastExpressionValue)
            (visitOption vm body) (itemsOf vm.platform r.2.lastExpressionValue).length) r.2).result :=
    Traced.result_bind _ _
  rw [hbind, h, Option.bind_some, if_neg (by simpa using hitems)]

/-- The context is the only scope around a run, and it is gone behind the run. -/
theorem execute_scopes (vm : JinjaVM D) (root : BodyNode D) (context : ValueMap D)
    {left : VmState D} {text : Text} (h : (execute vm root context s).result = some (text, left)) :
    left.scopes = [] := by
  obtain ⟨_, fetched, hget, h⟩ := run_bind h
  obtain ⟨_, begun, hset, h⟩ := run_bind h
  obtain ⟨_, ended, hbody, h⟩ := run_bind h
  obtain ⟨_, popped, hpop, h⟩ := run_bind h
  have hbegun : begun.scopes = [context] := by
    rw [← (Prod.mk.inj (Option.some.inj hset)).2]
  obtain ⟨inner, hended⟩ :=
    (stmtInvariant_keepsOuter vm).body root begun _ ended context [] hbegun hbody
  have hpopped : popped = { ended with scopes := ended.scopes.tail } :=
    (Prod.mk.inj (Option.some.inj hpop)).2.symm
  have hleft : left = popped := (Prod.mk.inj (Option.some.inj h)).2.symm
  rw [hleft, hpopped, hended]
  rfl

/-- No expression changes a scope and no statement one behind the innermost; every round of a `for`
begins with its own variables in front of the scopes that the loop began from, and ends with those
scopes; a run ends without scopes. -/
theorem scopes_kept (vm : JinjaVM D) :
    (∀ e, KeepsScopes (visitExpr vm e)) ∧ (∀ statement, KeepsOuter (visitStmt vm statement)) ∧
      (∀ pos targets iterable body elseBody s begun items,
        (visitExpr vm iterable s).result = some ((), begun) →
        items = itemsOf vm.platform begun.lastExpressionValue → items ≠ [] →
        (visitStmt vm (.forNode pos targets (some iterable) body elseBody) s).result =
            (iterations targets items (visitOption vm body) items.length begun).result ∧
          ∀ i reached, (iterations targets items (visitOption vm body) i begun).result =
              some ((), reached) →
            reached.scopes = s.scopes ∧
              (iterations targets items (visitOption vm body) (i + 1) begun).result =
                (visitOption vm body
                  { reached with scopes := roundScope targets items i :: s.scopes }).result.map
                    fun left => ((), { left.2 with scopes := s.scopes })) ∧
      ∀ root context s text left, (execute vm root context s).result = some (text, left) →
        left.scopes = [] := by
  have hexpr := (exprInvariant_keepsScopes vm).expr
  refine ⟨hexpr, (stmtInvariant_keepsOuter vm).stmt, ?_, fun _ _ _ _ _ => execute_scopes vm _ _⟩
  intro pos targets iterable body elseBody s begun items hbegun hitems hnonempty
  have hbody := (stmtInvariant_keepsOuter vm).optionalBody body
  have hscopes := hexpr iterable s () begun hbegun
  constructor
  · rw [hitems]
    exact visitStmt_forNode vm pos targets iterable body elseBody hbegun (hitems ▸ hnonempty)
  intro i reached hreached
  constructor
  · rw [iterations_scopes targets items hbody i begun () reached hreached, hscopes]
  · rw [iterations_succ targets items hbody hreached, hscopes]

end JobTokenizer.JinjaVM
