import FSharpWorkspace.Shell.Tool.Files
/-!
# Programs by name

The programs that a shell script, or the command of a cracker, can count on. Those that a shell has
built in may differ from the program of the same name.
-/

set_option autoImplicit false

namespace FSharpWorkspace.Shell.Tool

/-- The programs that a shell has built in; `complaint` starts what it complains of. -/
def builtIn? (name complaint : String) : Option (Call → Effect) :=
  match name with
  | "true" => some fun c => c.done (.silent 0)
  | "false" => some fun c => c.done (.silent 1)
  | "echo" => some fun c => c.done (shellEcho c.args)
  | "printf" => some fun c => c.done (printf complaint c.args)
  | "pwd" => some fun c => c.done (.printed (c.place.directory.text ++ "\n"))
  | "test" => some fun c => test (complaint ++ "test: ") c c.args
  | "[" => some (bracket complaint)
  | _ => none

/-- The programs that every system has, but for the shell. -/
def programs : List (String × (Call → Effect)) :=
  [("true", fun c => c.done (.silent 0)), ("false", fun c => c.done (.silent 1)),
    ("echo", fun c => c.done (echo c.args)), ("printf", fun c => c.done (printf "" c.args)),
    ("pwd", fun c => c.done (.printed (c.place.directory.text ++ "\n"))),
    ("test", fun c => test "test: " c c.args), ("[", bracket ""), ("cat", cat),
      ("head", head), ("tail", tail),
    ("wc", wc), ("grep", grep), ("sed", sed), ("tr", tr), ("sort", sort), ("uniq", uniq),
      ("seq", seq), ("yes", yes),
    ("dirname", fun c => c.done (.printed (dirname (c.args.head?.getD "") ++ "\n"))),
    ("basename", fun c =>
      c.done (.printed (basename (c.args.head?.getD "") (c.args[1]?.getD "") ++ "\n"))),
    ("sleep", fun c => c.done (.silent 0)), ("ls", ls), ("rm", rm), ("mkdir", mkdir),
      ("touch", touch), ("cp", cp),
    ("mv", mv), ("ln", ln), ("tee", tee), ("chmod", fun c => c.done (.silent 0))]

end FSharpWorkspace.Shell.Tool
