import GraphViews.Command.Run
import GraphViews.Proofs.Fallible

/-! # What comes of the steps of a command, records aside -/

namespace GraphViews.Command

open GraphViews.Tables GraphViews.Filter GraphViews.Graph GraphViews.Record Fallible

namespace Logged

variable {ε α β : Type}

@[simp] theorem result_pure (x : α) : (pure x : Logged ε α).result = .ok x := rfl

@[simp] theorem result_bind (x : Logged ε α) (f : α → Logged ε β) :
    (x >>= f).result = x.result >>= fun a => (f a).result := by
  change (Logged.bind x f).result = _
  unfold Logged.bind
  cases x.result <;> rfl

@[simp] theorem result_log (level : Level) (topic : Topic) (message : String) :
    (log level topic message : Logged ε Unit).result = .ok () := rfl

@[simp] theorem result_lift_ok {δ : Type} (wrap : δ → ε) (x : α) :
    (lift wrap (.ok x)).result = .ok x := rfl

@[simp] theorem result_lift_error {δ : Type} (wrap : δ → ε) (e : δ) :
    (lift wrap (.error e) : Logged ε α).result = .error (wrap e) := rfl

private theorem result_lift {δ : Type} (wrap : δ → ε) (x : Except δ α) :
    (lift wrap x).result = x.mapError wrap := by
  cases x <;> rfl

end Logged

theorem result_loadGraph (db : Database) (directed : Bool) :
    (loadGraph db directed).result = (loadDatabase db directed).mapError .load := by
  unfold loadGraph loadDatabase load
  cases readVertices db with
  | error e => rfl
  | ok V =>
    cases readEdges db with
    | error e => rfl
    | ok E =>
      cases hp : placeVertices directed V with
      | error e => simp [hp]
      | ok p => cases he : placeEdges p E <;> simp [hp, he]

theorem result_openGraph (files : String → Database) (r : Request) :
    (openGraph files r).result = (loadDatabase (files r.path) r.directed).mapError .load := by
  simp [openGraph, result_loadGraph]

theorem result_showing (g : DataGraph) (vertices edges : Option String) :
    (showing g vertices edges).result =
      (compile (vertices.getD "true") .vertex).mapError .filter >>= fun kv =>
      (VertexFilter.on g kv).mapError .fault >>= fun v =>
      (compile (edges.getD "true") .edge).mapError .filter >>= fun ke =>
      (EdgeFilter.on g ke).mapError .fault >>= fun e =>
      .ok (.filtered (.handle (.whole g)) ⟨e.test, v.test⟩) := by
  simp [showing, compileFilter, ofFault, Logged.result_lift]

theorem result_induced (g : DataGraph) (complement : Bool) (given : List String) :
    (induced g complement given).result =
      given.mapM readId >>= fun ids =>
      (selected g (.ofList ids)).mapError .fault >>= fun subset =>
      .ok (.filtered (.handle (.whole g)) (.induced (if complement then .outside subset else .inside subset))) := by
  simp [induced, ofFault, Logged.result_lift, apply_ite Logged.result]

/-- The view that a task asks for. -/
def Task.view (g : DataGraph) : Task → Step DataView
  | .filtered vertices edges => showing g vertices edges
  | .induced complement vids => Command.induced g complement vids
  | .residual => Command.residual g

theorem perform_eq_view (files : String → Database) (r : Request) :
    perform files r = openGraph files r >>= fun g => r.task.view g >>= fun w => ofFault (printed w) := by
  unfold perform
  congr
  funext g
  cases r.task <;> rfl

theorem result_perform_eq (files : String → Database) (r : Request) :
    (perform files r).result =
      (openGraph files r).result >>= fun g => (r.task.view g).result >>= fun w => (ofFault (printed w)).result := by
  simp only [perform_eq_view, Logged.result_bind]

/-- A run that succeeds prints its text and leaves with zero. -/
theorem Report.ofStep_ok {verbosity : Nat} {s : Step String} {text : String}
    (h : s.result = .ok text) :
    (Report.ofStep verbosity s).code = 0 ∧ (Report.ofStep verbosity s).stdout = text := by
  simp [Report.ofStep, h]

theorem Report.ofStep_error {verbosity : Nat} {s : Step String} {e : Failure}
    (h : s.result = .error e) :
    (Report.ofStep verbosity s).code = 1 ∧ (Report.ofStep verbosity s).stdout = "" ∧
      (Report.ofStep verbosity s).complaint = some e.message := by
  simp [Report.ofStep, h]

end GraphViews.Command
