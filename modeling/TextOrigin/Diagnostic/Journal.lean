import TextOrigin.Diagnostic

/-!
Journals collect diagnostics in the order in which they are reported and count the errors and
warnings among them.
-/

namespace TextOrigin

structure Journal where
  entries : Array Diagnostic := #[]

namespace Journal

def empty : Journal := {}

def report (journal : Journal) (diagnostic : Diagnostic) : Journal :=
  ⟨journal.entries.push diagnostic⟩

def errorCount (journal : Journal) : Nat :=
  journal.entries.countP fun d => d.severity = .error

def warningCount (journal : Journal) : Nat :=
  journal.entries.countP fun d => d.severity = .warning

def hasErrors (journal : Journal) : Bool :=
  journal.errorCount != 0

def headings (journal : Journal) (files? : Option Registry) : Bytes :=
  journal.entries.toList.flatMap fun d => d.heading files? ++ [Bytes.newline]

def withSnippets (journal : Journal) (registry : Registry) : Bytes :=
  journal.entries.toList.flatMap fun d =>
    d.heading (some registry) ++ [Bytes.newline] ++ d.snippet registry

end Journal

end TextOrigin
