/-!
# About the program
-/

namespace Stepwise.About

def name : String := "FlowRunner"

def summary : String := "Guided Workflow Interpreter"

def version : String := "0.1.0"

end Stepwise.About
