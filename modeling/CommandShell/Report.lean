import CommandShell.Text

/-!
# Reports

How the shell tells the user about an error: one line for an error of a command, of the line or
of a redirect, and a page for an error that only a mistake in the shell itself can cause.
-/

namespace CommandShell

namespace Report

inductive Kind where
  | command
  | unknownFlag
  | unknownFlagValue
  | fileNotFound
  | notADirectory
  | parse
  | noCommand
  | unknownCommand
  | badLine
  | redirect
  | exit
  | internal
  | general
deriving DecidableEq, Repr

def Kind.all : List Kind :=
  [command, unknownFlag, unknownFlagValue, fileNotFound, notADirectory, parse, noCommand,
    unknownCommand, badLine, redirect, exit, internal, general]

def Kind.name : Kind → String
  | command => "CommandError"
  | unknownFlag => "UnknownFlagError"
  | unknownFlagValue => "UnknownFlagValueError"
  | fileNotFound => "ShellFileNotFoundError"
  | notADirectory => "ShellNotADirectoryError"
  | parse => "ParseError"
  | noCommand => "NoCommandError"
  | unknownCommand => "UnknownCommandError"
  | badLine => "UserParseError"
  | redirect => "RedirectError"
  | exit => "ShellExitError"
  | internal => "DeveloperSkillIssue"
  | general => "BaseShellError"

def noMessage : Text := "Unknown".toList

/-- The picture above every report of an internal error. -/
def picture : String :=
"
                            .,,,*****/#&@@@@@@@@@@@@@@@&#/*,*,,,
                      ///(&@@@@@@@@@@@@@@@@@@@@@@@@@@@@@@@@@@@@@@@@&(*
                ,(#&@@@@@@@@@@@@@@@@@@@@@@@@@@@@@@&%##%%#/,,*,*#@@@@@@@%(*
            ./#@@@@@@&#(#&@@@@@@@&%%%(*,....,/%@@@@@@@@@@@@@@@&&&%&@@@@@@@&&&&%#,
        ,#@@@@@@@%#*.,(&@@@@@#*.                       ,(##%&@@@@@@@@@@@@@@@@@@&/
      /%@@@@&(*.   *#&@@@&(/,.,///////////,.             ,(&@@@@@@@@@@@@@@@@@@@%/
   .(&@@@&#,    .(&@@@@%*,(@@@@@@@@@@@@@@@@@&(.       ,*%@@@@@@@@@&&@@@@@@@@@@@@@&(,
  ,%@@@%*.   .*%&@@@@@@@@@@@@@@@@@%*..,*/#&@@@#.  .,#&@@@&#/(@@@@@&&&@@@&/,/%@@@@@@@%/
  /&@@&/  .*(&@@@@@@@@@@@@@@@@@&%*.      *#@@@#,  ,#@@@@%*.   .*%@@@@@@%/,   ./@@@@@@@@#,
 *&@@@(. /&@@@@@@@@@@@&(/******, ...,/#&@@@@@#*   .*#@@@@@&##(, .        ...*(%@@@@@@@@@@(.
 *&@@@*   .,,.   ,(&@@@@&%%%%%%%&@@@@@@@@%(*.        .,(%&@@@@@@@@@@@@@@@@@@@@@@@#*,*(&@@@#,
 ,%@@@*              *%@@@@@@@@@@@&%#(,.                  .,/#################*.      /&@@@(
(%@@@&*                                                                                (@@@@#.
(%@@&,             ./(/,                                                               .(@@@&(,
(%@@&,             (@@&#*                                                  .,,,,,,,,,,,../%@@@&(.
(%@@&,             *%@@@@%(//*.                                    .**/(%@@@@@@@@@@@@@@@#,,#@@@&*
(%@@@(,              ,#&@@@@@@@&%#((((((((((((((((((((((((((#&@@@@@@@@@@@@@&#///////(%@@@(.*&@@&#.
./&@@@%*               ./%&&&&@@@@@@@@@@@@@@@@@@@@@@@@@@@@@@@@@&&&&&&#/*,,.    .*#%&&@@@&/ ./&@@&*
  *%@@@(.                                             .                       ,(@@@@@@%*    ,&@@@(.
  .(@@@@#,                                                                   /&@@@%(,       .(&@@@(
    *&@@@%*                                                                  /&@@%,          ,%@@@&/
     .%@@@&/.                                                                /&@@%,           ,#@@@/
      ,#@@@@(.                                                               /@@@%,           ,%@@@/
       .(@@@@&(,                                                             (@@@%,           ,%@@@/
         ./&@@@&/.                                                         ,(&@@@#.         ./%@@@&*
           ,#&@@@(.                                                       .(@@@@(.          ,&@@@%*
            .(@@@@&#,                         .(&@@&(.                   *%@@@@#           ,(@@@&*
             .*(&@@@%/.                       ./%@@@@@@%/.             ./&@@@%,           /&@@@&/.
                ,#@@@@&(,                        .*#&@@@@@@#*.....,*#&&@@@@&(,          .(&@@@#.
                  ./%@@@@%*                          .*#&@@@@@@@@@@@@@@@&#*          .,#@@@@@(.
                     ,#@@@@&(,                            .*(((((((((*,.            ,#@@@@&(
                      ./%@@@@@@&#/,.                                             ,/%&@@@&/
                          .%#@@@@@@@&%#/,..                                  ,/%&@@@@&%*
                               ,,(%&@@@@@@@&&%//*/*.                   ,*/#&@@@@@&%/,
                                    .,//(%&@@@@@@@@@@@@@@@@@@@@@@@@@@@@@@@@@@&#*
                                           .,****/#%&&&&&&&&&&&&&&&&&&&%/,*,.
    "

end Report

/-- An error as the user sees it. -/
structure Report where
  kind : Report.Kind
  message : Text
deriving DecidableEq, Repr

def Report.render (report : Report) : Text :=
  match report.kind with
  | .redirect => "Redirect Error: ".toList ++ report.message
  | .internal =>
    (picture ++ "\nEncountering this error means the developer has messed something up. "
      ++ "Here is what happened: ").toList ++ report.message
  | .exit | .general => (report.kind.name ++ ": ").toList ++ report.message
  | kind => ("Command, " ++ kind.name ++ ": ").toList ++ report.message

end CommandShell
