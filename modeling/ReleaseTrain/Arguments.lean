import ReleaseTrain.CommandLine.Scan
import ReleaseTrain.Platform
import ReleaseTrain.Text.Blank

/-!
The arguments of a run: which task, for which version, and what is set otherwise.
-/

namespace ReleaseTrain

structure PackageArguments where
  platform : String := everyPlatform
  clean : Bool := false
  deriving DecidableEq, Repr

structure ImageArguments where
  tag : Option String := none
  registry : Option String := none
  imageName : Option String := none
  imagePlatform : Option String := none
  noCache : Bool := false
  noPush : Bool := false
  skipLoginCheck : Bool := false
  yes : Bool := false
  deriving DecidableEq, Repr

inductive Command
  | package (package : PackageArguments)
  | image (image : ImageArguments)
  | release (package : PackageArguments) (image : ImageArguments)
  deriving DecidableEq, Repr

structure Arguments where
  version : String
  command : Command
  config : Option String := none
  verbose : Bool := false
  quiet : Bool := false
  deriving DecidableEq, Repr

namespace Command

def task : Command → CommandLine.Task
  | package _ => .package
  | image _ => .image
  | release _ _ => .release

def package? : Command → Option PackageArguments
  | package p | release p _ => some p
  | image _ => none

def image? : Command → Option ImageArguments
  | image i | release _ i => some i
  | package _ => none

end Command

namespace CommandLine

namespace Found

def value? (found : Found) (name : OptionName) : Option String := (found.lookup name).join

def has (found : Found) (name : OptionName) : Bool := (found.lookup name).isSome

/-- The level may not hold both of the flags that contradict each other. -/
def checkConflicts (found : Found) : Except UsageError Unit :=
  if Found.has found .verbose && Found.has found .quiet then .error .argumentConflict else .ok ()

def package (found : Found) : PackageArguments where
  platform := (Found.value? found .platform).getD everyPlatform
  clean := Found.has found .clean

/-- The registry is taken from the environment where no option gives it. -/
def image (found : Found) (environment : Option String) : ImageArguments where
  tag := Found.value? found .tag
  registry := (Found.value? found .registry).or environment
  imageName := Found.value? found .imageName
  imagePlatform := Found.value? found .imagePlatform
  noCache := Found.has found .noCache
  noPush := Found.has found .noPush
  skipLoginCheck := Found.has found .skipLogin
  yes := Found.has found .yes

def command (found : Found) (environment : Option String) : Task → Command
  | .package => .package (package found)
  | .image => .image (image found environment)
  | .release => .release (package found) (image found environment)

end Found

/-- What the two levels say together. An option of the deeper level wins over the same one of the
level above, and a flag holds if either level sets it. -/
def combine (outer inner : Found) (task : Task) (version : String) (environment : Option String) :
    Arguments where
  version := version
  command := Found.command inner environment task
  config := (Found.value? inner .config).or (Found.value? outer .config)
  verbose := Found.has inner .verbose || Found.has outer .verbose
  quiet := Found.has inner .quiet || Found.has outer .quiet

def readTask (task : Task) (words : List String) : Except UsageError (Found × String) := do
  let (s, _) ← scan (.task task) {} words
  let found := (← s.settle).found
  Found.checkConflicts found
  match Found.value? found .version with
  | some version => return (found, version)
  | none => throw .missingRequiredArgument

/-- A level is judged as a whole, and the one after the subcommand before the one in front of it. -/
def parse (environment : Option String) (words : List String) : Except UsageError Arguments := do
  let (s, rest) ← scan .root {} words
  match rest with
  | some (task, words) =>
    let (inner, version) ← readTask task words
    let outer := (← s.settle).found
    Found.checkConflicts outer
    return combine outer inner task version environment
  | none =>
    let outer := (← s.settle).found
    throw (if outer.isEmpty then .displayHelpOnMissingArgumentOrSubcommand else .missingSubcommand)

end CommandLine

/-- A tag that is given may not be blank. The text is the complaint. -/
def Arguments.complaint? (a : Arguments) : Option String :=
  match a.command.image?.bind (·.tag) with
  | some tag => if Text.blank tag then some "Tag cannot be empty" else none
  | none => none

end ReleaseTrain
