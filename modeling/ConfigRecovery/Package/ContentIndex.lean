import ConfigRecovery.Bytes.Base64
import ConfigRecovery.Bytes.Blake3
import ConfigRecovery.Path.Basic
import ConfigRecovery.Settings
import ConfigRecovery.Store.Content

/-!
# Finding files by content

The index maps the digest of a content to the path of a file that holds it. Of several files with
one content it keeps the one with the smallest path, because it takes them in order of their paths
and keeps the first.
-/

namespace ConfigRecovery

/-- What stands for a content. -/
structure Digest where
  bytes : List UInt8
deriving Repr, DecidableEq

def Digest.of (bytes : List UInt8) : Digest := ⟨Blake3.hash bytes⟩

structure ContentIndex where
  /-- The digests of the contents, each with the path of a file that holds it -/
  paths : List (Digest × String)
deriving Repr

namespace ContentIndex

def empty : ContentIndex := ⟨[]⟩

def size (index : ContentIndex) : Nat := index.paths.length

def find? (index : ContentIndex) (digest : Digest) : Option String := index.paths.lookup digest

def insert (index : ContentIndex) (path : String) (bytes : List UInt8) : ContentIndex :=
  match index.find? (.of bytes) with
  | some _ => index
  | none => ⟨index.paths ++ [(.of bytes, Path.canonical path)]⟩

/-- The path of a file that holds exactly these bytes. -/
def lookup (index : ContentIndex) (bytes : List UInt8) : Option String := index.find? (.of bytes)

/-- Characters that may stand anywhere in inline data. -/
def isBlank (c : Char) : Bool := c = ' ' || c = '\t' || c = '\n' || c = '\x0c' || c = '\r'

/-- The path of a file that holds the bytes of inline data; data that cannot be read matches none. -/
def lookupInline (index : ContentIndex) (data : String) : Option String := do
  index.lookup (← Base64.decode (data.toList.filter fun c => !isBlank c))

/-- Whether a file may be an icon. -/
def isEligible (settings : Settings) (file : File) : Bool :=
  !(Path.extension? file.1).any settings.ignores

/-- Files in order of their paths; files of one path keep their order. -/
def inOrder (files : List File) : List File :=
  files.mergeSort fun a b => (compare a.1 b.1).isLE

/-- The index of the files that may be icons. -/
def ofFiles (settings : Settings) (files : List File) : ContentIndex :=
  ((inOrder files).filter (isEligible settings)).foldl
    (fun index file => index.insert file.1 file.2.toList) empty

end ContentIndex

end ConfigRecovery
