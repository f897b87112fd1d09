import DseMidi.Fault

/-!
# DseMidi.Files.Access

**What the programs need of a file system**: to read a file whole and to write one
whole. Programs are written against this interface, so that the same program runs on
the files of the machine and on a `FileSystem` value.
-/

namespace DseMidi

/-- Access to files by their paths. A file is written completely or not at all. -/
class FileAccess (m : Type → Type) where
  /-- The contents of a file. -/
  readFile : String → m (Except FileFault Bytes)
  /-- Creates a file with the given contents, or replaces the contents of one. -/
  writeFile : String → Bytes → m (Except FileFault Unit)

end DseMidi
