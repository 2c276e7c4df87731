import ConfigRecovery.Path.PageKey

/-!
# The entry page

The page that an application starts with stands at the front of its page list.
-/

namespace ConfigRecovery

/-- Moves the page that an entry path names to the front; the flag says whether it is listed. -/
def moveEntryFirst (pages : List String) (entry : String) : Bool × List String :=
  let name := (PageKey.ofPath entry).name
  if name ∈ pages then (true, name :: pages.erase name) else (false, pages)

end ConfigRecovery
