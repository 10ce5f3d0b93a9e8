import Stepwise.Validation

/-!
# Loading workflows

Why a workflow cannot be loaded or saved.
-/

namespace Stepwise

/-- Why a file cannot be read or written. -/
inductive FileError where
  | notFound
  | isDirectory
  | notDirectory
  | nameTooLong
  /-- A zero character in the path. -/
  | zeroInPath
  | notText
  /-- What the system says. -/
  | other (text : String)
  deriving DecidableEq, Repr

def FileError.message : FileError → String
  | .notFound => "No such file or directory (os error 2)"
  | .isDirectory => "Is a directory (os error 21)"
  | .notDirectory => "Not a directory (os error 20)"
  | .nameTooLong => "File name too long (os error 36)"
  | .zeroInPath => "file name contained an unexpected NUL byte"
  | .notText => "stream did not contain valid UTF-8"
  | .other text => text

inductive WorkflowError where
  | file (path : String) (error : FileError)
  | unreadable
  | invalid (fault : Fault)
  deriving DecidableEq, Repr

def WorkflowError.message : WorkflowError → String
  | .file path error => s!"failed to access workflow file '{path}': " ++ error.message
  | .unreadable => "failed to parse workflow: the document does not describe a workflow"
  | .invalid fault => "invalid workflow: " ++ fault.message

end Stepwise
