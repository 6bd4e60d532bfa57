/-!
Why an operation on files or processes fails, with the system's wording and number.
-/

namespace ReleaseTrain.FileSystem

inductive Failure
  | notPermitted
  | notFound
  | notExecutable
  | accessDenied
  | deviceBusy
  | alreadyExists
  | notDirectory
  | isDirectory
  | invalidArgument
  | textFileBusy
  | tooManyLinks
  | nameTooLong
  | notEmpty
  | argumentListTooLong
  /-- A path with a NUL in it, which no system call is asked about. -/
  | nulInPath
  /-- Bytes that are no text where a text is read. -/
  | notText
  deriving DecidableEq, Repr

namespace Failure

def system? : Failure → Option (String × Nat)
  | notPermitted => some ("Operation not permitted", 1)
  | notFound => some ("No such file or directory", 2)
  | argumentListTooLong => some ("Argument list too long", 7)
  | notExecutable => some ("Exec format error", 8)
  | accessDenied => some ("Permission denied", 13)
  | deviceBusy => some ("Device or resource busy", 16)
  | alreadyExists => some ("File exists", 17)
  | notDirectory => some ("Not a directory", 20)
  | isDirectory => some ("Is a directory", 21)
  | invalidArgument => some ("Invalid argument", 22)
  | textFileBusy => some ("Text file busy", 26)
  | nameTooLong => some ("File name too long", 36)
  | notEmpty => some ("Directory not empty", 39)
  | tooManyLinks => some ("Too many levels of symbolic links", 40)
  | nulInPath | notText => none

def message (failure : Failure) : String :=
  match failure.system?, failure with
  | some (words, number), _ => s!"{words} (os error {number})"
  | none, notText => "stream did not contain valid UTF-8"
  | none, _ => "file name contained an unexpected NUL byte"

end Failure

end ReleaseTrain.FileSystem
