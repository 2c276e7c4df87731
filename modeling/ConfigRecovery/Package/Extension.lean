import ConfigRecovery.Json.Value

/-!
# The file of the extension platform

A package that is an extension of another application has an id and a configuration for it. The
file is written only if both are present.
-/

namespace ConfigRecovery

/-- The content of the extension's file, if the id and the configuration are both present. -/
def extensionBody : Option Json.Value → Option Json.Value → Option Json.Value
  | some id, some extension =>
    some (.object [("extEnable", .bool true), ("extAppid", id), ("ext", extension)])
  | _, _ => none

end ConfigRecovery
