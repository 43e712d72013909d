import Abacus.Failure.Report
import Abacus.Settings.Basic
import Abacus.Toml.Document

/-!
# Settings — the configuration file

Settings are kept in the table `calc` of a TOML file.  Without the file, or the table, they are
the default ones.  A path that the system gives no access to, a file that cannot be read as a text
and an integer that cannot be read are no business of the calculator's (`Unreadable`); everything
else that can be wrong with the file is a configuration error, and so is a rejected change of
settings.

A document that is not TOML is refused by its reader, in words of the reader's own that stand at the
end of the calculator's message.  They are left open here: `words` says them of each text.
-/

namespace Abacus
open Data Fields

/-- What stands at a path, as far as the system lets it be seen: where a permission is missing, or
the path is too long for one, it says nothing but that. -/
inductive Content where
  | absent
  | inaccessible
  | directory
  | file (bytes : ByteArray)

/-- Why a file cannot be read. -/
inductive Unreadable where
  | inaccessible
  | directory
  | notUtf8
  | oversized (digits : Nat)
  deriving Repr, DecidableEq

/-- What is wrong with a configuration. -/
inductive ConfigError where
  | notToml (path words : String)
  | notTable (path : String)
  | invalid (path : String) (complaints : List Complaint)
  | option (complaints : List Complaint)
  deriving Repr

/-- The name under which complaints about settings are reported. -/
def Settings.recordName : String := "CalcConfig"

namespace ConfigError

def message : ConfigError → String
  | .notToml path ws => "Invalid TOML in " ++ path ++ ": " ++ ws
  | .notTable path   => "[calc] in " ++ path ++ " must be a table"
  | .invalid path cs =>
      "Invalid configuration in " ++ path ++ ": " ++ reportText Settings.recordName cs
  | .option cs       => "Invalid option: " ++ reportText Settings.recordName cs

/-- The error as a report. -/
def report (e : ConfigError) : Failure.Report := ⟨.config, e.message, none⟩

def kind (e : ConfigError) : Failure.Kind := e.report.kind

end ConfigError

/-- Why there are no settings. -/
inductive LoadError where
  | unreadable (why : Unreadable)
  | config (e : ConfigError)
  deriving Repr

namespace Settings

/-- The name of the configuration file. -/
def fileName : String := "treecalc.toml"

/-- The settings in a document. -/
def ofDocument (path : String) (es : Entries) : Except ConfigError Settings :=
  match es.get? "calc" with
  | none               => .ok {}
  | some (.table opts) => (ofEntries opts).mapError (.invalid path)
  | some _             => .error (.notTable path)

/-- The settings in the text of a file. -/
def ofText (words : String → String) (path source : String) : Except LoadError Settings :=
  match Toml.parse source with
  | .error .malformed     => .error (.config (.notToml path (words source)))
  | .error (.oversized n) => .error (.unreadable (.oversized n))
  | .ok es                => (ofDocument path es).mapError .config

/-- The settings in what stands at a path. -/
def load (words : String → String) (path : String) : Content → Except LoadError Settings
  | .absent       => .ok {}
  | .inaccessible => .error (.unreadable .inaccessible)
  | .directory    => .error (.unreadable .directory)
  | .file bytes   =>
      match String.fromUTF8? bytes with
      | none        => .error (.unreadable .notUtf8)
      | some source => ofText words path source

/-- A change of settings, a rejected one being a configuration error. -/
def change (s : Settings) (es : Entries) : Except ConfigError Settings :=
  (s.override es).mapError .option

end Settings

end Abacus
