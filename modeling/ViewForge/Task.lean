import ViewForge.Error
/-! Work that may fail and that keeps its state when it does. -/
namespace ViewForge

abbrev Task (σ α : Type) := ExceptT Error (StateM σ) α

/-- The outcome together with the state, which a failure leaves as it was at that moment. -/
def Task.outcome (task : Task σ α) (state : σ) : Result α × σ := StateT.run (ExceptT.run task) state

def Task.observed (task : Task σ α) : Task σ (Result α) := fun state =>
  let (outcome, next) := task.outcome state
  (.ok outcome, next)

def Task.inFile (path : String) (task : Task σ α) : Task σ α :=
  tryCatch task fun e => throw (e.annotate path)

end ViewForge
