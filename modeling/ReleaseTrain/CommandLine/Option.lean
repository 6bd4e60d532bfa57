/-!
The options of the command line: their spellings, and which of them each level of it knows. The
level before the subcommand has no version to release, so `--version` asks for the program's own
there; after a subcommand it takes a value.
-/

namespace ReleaseTrain.CommandLine

inductive OptionName
  | config
  | verbose
  | quiet
  | help
  | programVersion
  | version
  | platform
  | clean
  | tag
  | registry
  | imageName
  | imagePlatform
  | noCache
  | noPush
  | skipLogin
  | yes
  deriving DecidableEq, Repr

/-- What giving an option does: it takes a value, it sets a flag, or it ends the reading of the
command line with a page of text. -/
inductive Kind
  | value
  | flag
  | page
  deriving DecidableEq, Repr

namespace OptionName

def kind : OptionName → Kind
  | config | version | platform | tag | registry | imageName | imagePlatform => .value
  | verbose | quiet | clean | noCache | noPush | skipLogin | yes => .flag
  | help | programVersion => .page

def long : OptionName → String
  | config => "config"
  | verbose => "verbose"
  | quiet => "quiet"
  | help => "help"
  | programVersion => "version"
  | version => "version"
  | platform => "platform"
  | clean => "clean"
  | tag => "tag"
  | registry => "registry"
  | imageName => "image"
  | imagePlatform => "image-platform"
  | noCache => "no-cache"
  | noPush => "no-push"
  | skipLogin => "skip-login"
  | yes => "yes"

def short? : OptionName → Option Char
  | help => some 'h'
  | programVersion => some 'V'
  | version => some 'v'
  | platform => some 'p'
  | tag => some 't'
  | registry => some 'r'
  | yes => some 'y'
  | _ => none

end OptionName

/-- The subcommands: package the agents, build the image, or both. -/
inductive Task
  | package
  | image
  | release
  deriving DecidableEq, Repr

namespace Task

def all : List Task := [package, image, release]

def name : Task → String
  | package => "package"
  | image => "image"
  | release => "release"

def ofName? (name : String) : Option Task := all.find? (·.name = name)

end Task

def globalOptions : List OptionName := [.config, .verbose, .quiet, .help]

def packageOptions : List OptionName := [.platform, .clean]

def imageOptions : List OptionName :=
  [.tag, .registry, .imageName, .imagePlatform, .noCache, .noPush, .skipLogin, .yes]

/-- A stretch of the command line: what stands before the subcommand, or what follows it. -/
inductive Level
  | root
  | task (task : Task)
  deriving DecidableEq, Repr

namespace Level

def options : Level → List OptionName
  | root => .programVersion :: globalOptions
  | task .package => .version :: packageOptions ++ globalOptions
  | task .image => .version :: imageOptions ++ globalOptions
  | task .release => .version :: packageOptions ++ imageOptions ++ globalOptions

def ofLong? (level : Level) (name : String) : Option OptionName :=
  level.options.find? (·.long = name)

def ofShort? (level : Level) (c : Char) : Option OptionName :=
  level.options.find? (·.short? = some c)

end Level

/-- Why a command line is not run: it is refused, or it asks only for a page of text. -/
inductive UsageError
  | missingRequiredArgument
  | unknownArgument
  | invalidSubcommand
  | invalidValue
  | tooManyValues
  | argumentConflict
  | displayHelp
  | displayVersion
  | missingSubcommand
  | displayHelpOnMissingArgumentOrSubcommand
  deriving DecidableEq, Repr

namespace UsageError

/-- The pages that were asked for are no failure. -/
def exitCode : UsageError → Nat
  | displayHelp | displayVersion => 0
  | _ => 2

end UsageError

end ReleaseTrain.CommandLine
