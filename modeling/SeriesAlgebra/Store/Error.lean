import SeriesAlgebra.Frame.Basic

/-!
# Errors of the store
-/

namespace SeriesAlgebra

/-- Why the store refuses a call. -/
inductive StoreError
  | unknownSeries (name : String)
  | unknownGroup (name : String)
  | nameTaken (name : String)
  | staleInsertion (name : String) (inserted : InsertionDate)
  | frame (e : FrameError)
  deriving DecidableEq, Repr

namespace StoreError

/-- The wording of an error. -/
def message : StoreError → String
  | unknownSeries name => s!"unknown series `{name}`"
  | unknownGroup name => s!"unknown group `{name}`"
  | nameTaken name => s!"`{name}` already exists in the store"
  | staleInsertion name inserted =>
    s!"insertion date {inserted.text} UTC of `{name}` is not after its latest revision"
  | frame e => e.message

end StoreError

end SeriesAlgebra
