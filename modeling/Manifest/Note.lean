/-!
# Notes

What an operation reports besides its result.
-/

namespace Manifest

/-- A report of an operation. -/
inductive Note where
  | debug (message : String)
  | warning (message : String)
deriving DecidableEq

end Manifest
