import Stepwise.Folder
import Stepwise.Template.Document

/-!
# Workflow files

A workflow is saved as a document in a file and loaded from there.
-/

namespace Stepwise

def Workflow.document (w : Workflow) : String := Yaml.write w.encode

/-- Loads a workflow from a path, whose content is given. -/
def Workflow.loadFile (path : String) (content : Except FileError ByteArray) :
    Except WorkflowError Workflow × List Caution :=
  match content with
  | .error error => (.error (.file path error), [])
  | .ok bytes =>
    match String.fromUTF8? bytes with
    | none => (.error (.file path .notText), [])
    | some text => Workflow.load text

namespace Folder

def load (path : String) (f : Folder) : Except WorkflowError Workflow × List Caution :=
  Workflow.loadFile path (f.read path)

def save (path : String) (w : Workflow) (f : Folder) : Except WorkflowError Folder :=
  (f.write path w.document.toUTF8).mapError (.file path)

end Folder

end Stepwise
