import ConfigRecovery.Path.Basic

/-!
# Page keys

A page is known by its canonical path without the extension of the final segment, so
`pages/index.js`, `/pages/index` and `pages\index.json` all name one page. Component specifiers
are resolved against the key of the page that uses them.
-/

namespace ConfigRecovery

structure PageKey where
  name : String
deriving DecidableEq, Repr, Inhabited

namespace PageKey

/-- Keys are ordered as their names. -/
instance : Ord PageKey where
  compare a b := compare a.name b.name

instance : Std.TransOrd PageKey where
  eq_swap {a b} := Std.OrientedOrd.eq_swap (a := a.name) (b := b.name)
  isLE_trans {a b c} := Std.TransOrd.isLE_trans (a := a.name) (b := b.name) (c := c.name)

instance : Std.LawfulEqOrd PageKey where
  eq_of_compare {a b} h := by
    cases a
    cases b
    exact congrArg _ (Std.LawfulEqOrd.eq_of_compare h)

/-- The page that a raw path names. -/
def ofPath (raw : String) : PageKey := ⟨Path.stem (Path.canonical raw)⟩

/-- The directory part of a key: all before its last slash, nothing if it has none. -/
def directory (key : PageKey) : String :=
  String.ofList ((key.name.toList.reverse.dropWhile fun c => c ≠ '/').drop 1).reverse

/-- The page that a path names when it is read from the directory of a key. -/
def relative (key : PageKey) (path : String) : PageKey := ofPath (key.directory ++ "/" ++ path)

def configFile (key : PageKey) : String := Path.configFile key.name

/-- The scheme of components that come from a plugin. -/
def pluginScheme : String := "plugin://"

/-- Where components of plugins live. -/
def pluginRoot : String := "/__plugin__/"

/--
The component that a specifier names when the page uses it. A plugin's component lives below the
plugin root, a leading slash starts at the top, and all else is relative to the page's directory.
-/
def component (page : PageKey) (specifier : String) : PageKey :=
  match Text.replaceFirst pluginScheme.toList pluginRoot.toList specifier.toList with
  | '/' :: absolute => ofPath (String.ofList absolute)
  | path => page.relative (String.ofList path)

end PageKey

end ConfigRecovery
