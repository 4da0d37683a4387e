/-!
What the system answers when it cannot do what it is asked for.
-/

namespace WarmCompile

inductive IoError where
  | noEntry
  | noPermission
  | alreadyExists
  | notDirectory
  | isDirectory
  | nameTooLong
  | refused
  | notUtf8
  | nulInPath
  | nulInArgument
  | socketPathTooLong
  | emptyPath
  | invalidArgument
  | other (text : String)
  deriving DecidableEq, Repr, Inhabited

def IoError.message : IoError → String
  | .noEntry => "No such file or directory (os error 2)"
  | .noPermission => "Permission denied (os error 13)"
  | .alreadyExists => "File exists (os error 17)"
  | .notDirectory => "Not a directory (os error 20)"
  | .isDirectory => "Is a directory (os error 21)"
  | .invalidArgument => "Invalid argument (os error 22)"
  | .nameTooLong => "File name too long (os error 36)"
  | .refused => "Connection refused (os error 111)"
  | .notUtf8 => "stream did not contain valid UTF-8"
  | .nulInPath => "file name contained an unexpected NUL byte"
  | .nulInArgument => "nul byte found in provided data"
  | .socketPathTooLong => "path must be shorter than SUN_LEN"
  | .emptyPath => "cannot make an empty path absolute"
  | .other text => text

end WarmCompile
