import Tcos.Xmlrpc.Xauth

/-! The handlers of tcosxmlrpc.

A handler takes the strings of a request and an `Env` to an `Outcome`: the command
lines it gives to `popen` or `system` in order, the files it writes, the credential
check it made and what it answers. The `xauth` command of the cookie check is part of
the check, not of `ran`. `serve` is the method registry. -/
namespace Tcos.Xmlrpc
open Shell (Text lit)
open Libc

/-- A credential check a handler made. -/
inductive Check where
  | login (result : Text)
  | xauth (run : XauthRun)
  deriving DecidableEq, Repr

def loginOk : Text := lit "ok"

def Check.passed : Check → Bool
  | .login result => result == loginOk
  | .xauth run => run.code == .ok

structure Outcome where
  ran : List Line := []
  wrote : List (Text × List UInt8) := []
  check : Option Check := none
  /-- The strings of the answer; none if the handler reads through a null pointer. -/
  reply : Option (List Text) := none
  deriving DecidableEq, Repr

/-- A credential check of the handler succeeded. -/
def Outcome.authenticated (o : Outcome) : Bool := (o.check.map Check.passed).getD false

/-! ### Building blocks -/

def answer (t : Text) : Outcome := { reply := some [t] }

def isError (t : Text) : Bool := decide (lit "error" <+: t)

/-- Run `cmd` and answer the first line it prints, `before` if it prints none. -/
def answerLine (e : Env) (size : Nat) (before : Text) (failed : Option Text) (cmd : Line) : Outcome where
  ran := [cmd]
  reply := (match e.popen cmd.text with
    | .failed => failed
    | p => reading size before p).map fun t => [t]

/-- The commands up to the first whose stream does not open: it is used all the same. -/
def reached (e : Env) : List Line → List Line
  | [] => []
  | c :: rest => c :: if e.popen c.text = .failed then [] else reached e rest

def answerAfter (e : Env) (cmds : List Line) (t : Text) : Outcome where
  ran := reached e cmds
  reply := if cmds.any fun c => e.popen c.text == .failed then none else some [t]

def needLogin (e : Env) (user pass : Text) (refused : Text → List Text) (go : Outcome) : Outcome :=
  let result := e.validateLogin user pass
  if result = loginOk then { go with check := some (.login result) }
  else { check := some (.login result), reply := some (refused result) }

def needXauth (e : Env) (cookie hostname refused : Text) (go : Outcome) : Outcome :=
  let run := handleXauth e cookie hostname
  if run.code = .ok then { go with check := some (.xauth run) }
  else { check := some (.xauth run), reply := some [refused] }

def xauthDenied : Text := lit "error: xauth access denied"

def myIpAddress (b : Build) : Text := b.tcosPath ++ lit "/getinfo.sh -i NETWORK_IP"

/-- The cookie if the password names this machine, else the login. -/
def needOwnXauthOrLogin (b : Build) (e : Env) (user pass : Text) (go : Outcome) : Outcome :=
  let ip := checkIpAddress e.ownStack e.ipString
  let o :=
    if pass = e.hostname.name ∨ pass = ip.ipstr then needXauth e user pass xauthDenied go
    else needLogin e user pass (fun r => [r]) go
  { o with ran := own (myIpAddress b) :: o.ran }

/-! ### simple-methods.c, login.c, xauth.c -/

def tcosVersion (e : Env) : Outcome := answer e.version

def tcosEcho (s : Text) : Outcome := answer s

def tcosStatus (e : Env) (app : Text) : Outcome :=
  let cmd : Line := cut buffSize
    (own (lit "pidof ") ++ req app ++ own (lit "| grep -c \"[1234567890]\""))
  { ran := [cmd]
    reply := match e.popen cmd.text with
      | .failed => none
      | .silent => some [e.leftover]
      | .line l => some [(tokens isSpace l).headD e.leftover] }

def tcosLogin (e : Env) (user pass : Text) : Outcome :=
  let result := e.validateLogin user pass
  { check := some (.login result)
    reply := some [
      if result = loginOk then lit "ok"
      else if result = lit "error: User not allowed" then lit "error: User not allowed"
      else if result = lit "error: Password not valid" then lit "error: Password not valid"
      else if result = lit "error: cant read shadow" then lit "error: cant read shadow"
      else if result = lit "error: user expired" then lit "error: user expired"
      else lit "error: unknow error"] }

/-- The number 1 is passed where a string is expected. -/
def tcosLogout : Outcome := {}

def tcosXauth (e : Env) (cookie hostname : Text) : Outcome :=
  needXauth e cookie hostname (lit "xauth: error access denied") (answer (lit "xauth: access OK"))

/-! ### standalone.c -/

def standaloneUser : Text := lit "/usr/lib/tcos/tcos-last --user 2>/dev/null"

def standaloneProcess : Text :=
  lit "ps U $(" ++ standaloneUser ++ lit ") -o pid | sed 's/[[:blank:]]//g' | grep -c ^[0-9]"

def standaloneTime : Text := lit "/usr/lib/tcos/tcos-last --time 2>/dev/null"

def standaloneExclude : Text := lit "/usr/lib/tcos/tcos-last --ingroup"

def standaloneServer : Build → Text
  | .thinClient => lit "/usr/bin/get_server"
  | .standalone => lit "/usr/lib/tcos/get_server"

def standaloneMultiseat : Text := lit "/usr/lib/tcos/get_multiseat"

def standaloneUnknow : Text := lit "error: Unknow user"

def tcosStandalone (b : Build) (e : Env) (info group : Text) : Outcome :=
  let go := answerLine e bigBuffer (lit "error: tcos-last returned error") (some standaloneUnknow)
  let quiet := own (lit " 2>/dev/null")
  if info = lit "get_user" then go (own standaloneUser)
  else if info = lit "get_exclude" then
    go (cut bsize (own (standaloneExclude ++ lit "=") ++ req group ++ quiet))
  else if info = lit "get_process" then go (own standaloneProcess)
  else if info = lit "get_server" then
    go (cut bsize (own (standaloneServer b ++ lit " ") ++ req group ++ quiet))
  else if info = lit "get_multiseat" then
    go (cut bsize (own (standaloneMultiseat ++ lit " ") ++ req group ++ quiet))
  else if info = lit "get_time" then go (own standaloneTime)
  else answer standaloneUnknow

def tcosDbus (b : Build) (e : Env) (dbus user pass : Text) : Outcome :=
  needLogin e user pass (fun r => [r])
    (answerLine e bigBuffer (lit "error: dbus error") (some (lit "error: dbus error"))
      (cut bsize (own (b.tcosPath ++ lit "/tcos-dbus-helper ") ++ req dbus)))

/-! ### pci.c -/

def pciAll : Text := lit "lspci | awk '\x7bprintf $1\" \"\x7d'; echo"

/-- What `pciAll` prints. -/
def pciOutput (e : Env) : Text := (e.lspci.flatMap fun i => i.id ++ [' ']) ++ ['\n']

def pciError : Text := lit "error: pci command failure"

def pciCommand (pci : Text) : Line :=
  cut bsize (own (lit "lspci |grep \"") ++ req pci ++ own (lit "\" | sed s/\"") ++ req pci ++
    own (lit " \"//g"))

def tcosPci (e : Env) (pci : Text) : Outcome :=
  if pci = [] then answer (lit "error: Need PCI id (example 00:10.1)")
  else if pci = lit "pci_all" then
    { ran := [own pciAll], reply := some [removeLineBreak (fgets bsize (pciOutput e))] }
  else
    let allpci := fgets bsize (pciOutput e)
    if pci <:+: allpci then
      let o := answerLine e bsize pciError none (pciCommand pci)
      { o with ran := own pciAll :: o.ran }
    else { ran := [own pciAll], reply := some [lit "error: Unknow pci id"] }

/-! ### exe.c, lockscreen.c, lockcontroller.c -/

def display : Build → Text
  | .thinClient => lit "DISPLAY=:0 XAUTHORITY=/root/.Xauthority"
  | .standalone => lit "DISPLAY=:0 XAUTHORITY=$(/usr/lib/tcos/get_xauth)"

def cmdWrapper (b : Build) : Text :=
  match b with
  | .thinClient => display b ++ lit " /sbin/daemonize.sh "
  | .standalone => display b ++ lit " /usr/lib/tcos/daemonize.sh "

def jobExe (b : Build) (cmd : Line) : Line := cut buffSize (own (cmdWrapper b ++ lit " ") ++ cmd)

def killExe (cmd : Line) : Line := cut buffSize (own (lit "killall ") ++ cmd)

def tcosExe (b : Build) (e : Env) (s user pass : Text) : Outcome :=
  needLogin e user pass (fun r => [r]) (answerAfter e [jobExe b (req s)] s)

def tcosKill (e : Env) (s user pass : Text) : Outcome :=
  needLogin e user pass (fun r => [r]) (answerAfter e [killExe (req s)] s)

/-- The name of a program of the server's directory. -/
def program (b : Build) (action : Line) : Line :=
  if b.tcosPath = lit "/sbin" then action else own (b.tcosPath ++ lit "/") ++ action

def tcosLockscreen (b : Build) (e : Env) (user pass : Text) : Outcome :=
  needLogin e user pass (fun r => [r])
    (answerAfter e [jobExe b (program b (own (lit "lockscreen")))] (lit "OK"))

def tcosUnlockscreen (e : Env) (user pass : Text) : Outcome :=
  needLogin e user pass (fun r => [r]) (answerAfter e [killExe (own (lit "lockscreen"))] (lit "OK"))

def lockcontrollerExe (b : Build) (action : Line) : Line := jobExe b (program b action)

def lockcontrollerKill (action : Line) : Line := killExe action

def tcosLockcontroller (b : Build) (e : Env) (action user pass : Text) : Outcome :=
  needLogin e user pass (fun r => [r]) (answerAfter e [jobExe b (program b (req action))] (lit "OK"))

def tcosUnlockcontroller (e : Env) (action user pass : Text) : Outcome :=
  needLogin e user pass (fun r => [r]) (answerAfter e [killExe (req action)] (lit "OK"))

/-! ### xorg.c, sound.c, devices.c, config.c -/

def tcosXorg (b : Build) (e : Env) (option cmdline user pass : Text) : Outcome :=
  let xorgcfg := b.tcosPath ++ lit "/configurexorg"
  let conf := lit "/etc/X11/xorg.conf"
  let change (opts : Text) : Outcome :=
    let cmd : Line := cut bsize (own (xorgcfg ++ opts ++ lit " ") ++ req cmdline)
    { ran := [cmd]
      reply := some [if e.system cmd.text then lit "ok" else lit "error: Command return error"] }
  needLogin e user pass (fun r => [r])
    (if option = lit "new" then change (lit " --newsettings --outputfile=" ++ conf)
    else if option = lit "change" then change (lit " --changesettings --outputfile=" ++ conf ++ [' '])
    else if option = lit "rebuild" then
      change (lit " --newsettings --downloadagain --restartxorg --outputfile=" ++ conf ++ [' '])
    else if option = lit "get" then
      answerLine e bsize (lit "error: Command return error") (some (lit "error: Error reading pipe"))
        (own (xorgcfg ++ lit " --getsettings "))
    else answer (lit "error: Unknow option for " ++ xorgcfg))

def tcosSound (b : Build) (e : Env) (option cmdline user pass : Text) : Outcome :=
  needOwnXauthOrLogin b e user pass
    (answerLine e bsize (lit "error: sound action error.") (some (lit "error: reading sound settings."))
      (cut bsize (own (b.tcosPath ++ lit "/soundctl.sh  ") ++ req option ++ own (lit " ") ++
        req cmdline)))

/-- `DEVICES_WRAPPER` and the blank of the format. -/
def devicesWrapper (b : Build) : Text := b.tcosPath ++ lit "/devicesctl.sh  "

def tcosDevices (b : Build) (e : Env) (option cmdline cookie hostname : Text) : Outcome :=
  let go := answerLine e bsize (lit "error: device action error.")
    (some (lit "error: reading devices settings."))
    (cut bsize (own (devicesWrapper b) ++ req option ++ own (lit " ") ++ req cmdline))
  if option = lit "--getxdrivers" then go
  else needXauth e cookie hostname xauthDenied go

def tcosConfig (b : Build) (e : Env) (option cmdline user pass : Text) : Outcome :=
  needOwnXauthOrLogin b e user pass
    (answerLine e bsize (lit "-1") (some (lit "error: reading config settings."))
      (cut bsize (own (b.tcosPath ++ lit "/configctl.sh  ") ++ req option ++ own (lit " ") ++
        req cmdline)))

/-! ### info.c -/

/-- The requests of info.c and the arguments each gives to getinfo.sh. -/
def infoMethods : List (String × String) :=
  [("get_client", "-t"), ("get_process", "-p"), ("cpu_model", "-i CPU_MODEL"),
    ("cpu_speed", "-i CPU_SPEED"), ("cpu_vendor", "-i CPU_VENDOR"), ("ram_total", "-i RAM_TOTAL"),
    ("ram_active", "-i RAM_ACTIVE"), ("ram_free", "-i RAM_FREE"), ("ram_used", "-i RAM_USED"),
    ("swap_avalaible", "-i SWAP_AVALAIBLE"), ("swap_total", "-i SWAP_TOTAL"),
    ("swap_used", "-i SWAP_USED"), ("swap_free", "-i SWAP_FREE"), ("tcos_date", "-i TCOS_DATE"),
    ("tcos_generation_date", "-i TCOS_GENERATION_DATE"), ("tcos_version", "-i TCOS_VERSION"),
    ("tcos_uptime", "-i TCOS_UPTIME"), ("kernel_version", "-i KERNEL_VERSION"),
    ("kernel_complete_version", "-i KERNEL_COMPLETE_VERSION"),
    ("network_hostname", "-i NETWORK_HOSTNAME"), ("network_ip", "-i NETWORK_IP"),
    ("network_mac", "-i NETWORK_MAC"), ("network_mask", "-i NETWORK_MASK"),
    ("network_rx", "-i NETWORK_RX"), ("network_tx", "-i NETWORK_TX"),
    ("modules_loaded", "-i MODULES_LOADED"), ("modules_notfound", "-i MODULES_NOTFOUND"),
    ("screensize", "-i SCREENSIZE")]

def infoUnknow : Text := lit "error: Unknow info request"

def infoCommand (b : Build) (args : String) : Text := b.tcosPath ++ lit "/getinfo.sh " ++ lit args

def tcosInfo (b : Build) (e : Env) (info : Text) : Outcome :=
  match infoMethods.find? fun m => lit m.1 = info with
  | none => answer infoUnknow
  | some m =>
    answerLine e bigBuffer (lit "error: info command failure") (some infoUnknow)
    (own (infoCommand b m.2))

/-! ### vnc.c, vlc.c, rtp.c, tnc.c, dpms.c, get_screenshot.c, reboot_poweroff.c -/

/-- `%s %s %s %s:%s` of vnc.c and rtp.c. -/
def sessionCommand (controller : Text) (action args user pass : Text) : Line :=
  own (controller ++ lit "  ") ++ req action ++ own (lit " ") ++ req args ++ own (lit " ") ++ req user ++
    own (lit ":") ++ req pass

def tcosVnc (b : Build) (e : Env) (action args user pass : Text) : Outcome :=
  let cmd := sessionCommand (b.tcosPath ++ lit "/vnc-controller.sh") action args user pass
  needLogin e user pass (fun r => [r])
    { answerLine e bigBuffer (lit "error: vnc command error") none cmd with
      ran := reached e (cmd ::
        if action = lit "startclient" then [lockcontrollerExe b (own (lit "lockvnc"))]
        else if action = lit "stopclient" then [lockcontrollerKill (own (lit "lockvnc"))] else []) }

def tcosVlc (b : Build) (e : Env) (volume lock user pass : Text) : Outcome :=
  needLogin e user pass (fun r => [r])
    (answerAfter e ((own (b.tcosPath ++ lit "/vlc-controller.sh ") ++ req volume) ::
      if lock = lit "enable" then [lockcontrollerExe b (own (lit "lockvlc"))] else []) (lit "OK"))

def tcosRtp (b : Build) (e : Env) (action broadcast user pass : Text) : Outcome :=
  needLogin e user pass (fun r => [r])
    (answerLine e bigBuffer (lit "error: rtp command error") none
      (sessionCommand (b.tcosPath ++ lit "/rtp-controller.sh") action broadcast user pass))

def networkIface (b : Build) : Text := b.tcosPath ++ lit "/getinfo.sh -i NETWORK_IFACE"

def tcosTnc (b : Build) (e : Env) (action onlyports ports username user pass : Text) : Outcome :=
  let blank := own (lit " ")
  let start := own (b.tcosPath ++ lit "/tnc  ") ++ req action ++ blank ++ req onlyports ++ blank ++
    req ports ++ blank
  let run := answerLine e bigBuffer (lit "error: tnc command error") none
  needLogin e user pass (fun r => [r])
    (if action = lit "disable-internet" then
      let o :=
        match reading bigBuffer e.leftover (e.popen (networkIface b)) with
        | none => run (own e.leftover)
        | some iface => run (start ++ own iface ++ blank ++ req username)
      { o with ran := own (networkIface b) :: o.ran }
    else run (start ++ req username))

def tcosDpms (b : Build) (e : Env) (action user pass : Text) : Outcome :=
  let xset := display b ++ lit " /usr/bin/xset"
  needLogin e user pass (fun r => [r])
    (answerLine e bigBuffer (lit "error: dpms command error") none (own
      (if action = lit "off" then xset ++ lit " dpms force off; echo $?"
      else if action = lit "on" then xset ++ lit " dpms force on; echo $?"
      else xset ++ lit " q| awk '/Monitor/ \x7bprint $3\x7d'")))

def screenshotFile : Build → Text
  | .thinClient => lit "/var/www/capture-thumb.jpg"
  | .standalone => lit "/var/lib/tcos/standalone/www/capture-thumb.jpg"

def tcosGetScreenshot (b : Build) (e : Env) (size user pass : Text) : Outcome :=
  let scrot := own (b.tcosPath ++ lit "/screenshot.sh")
  let cmd : Line := cut bsize (if size = [] then scrot else scrot ++ own (lit " ") ++ req size)
  needLogin e user pass (fun r => [r, []])
    { ran := [cmd]
      reply := match e.popen cmd.text, e.readfile (screenshotFile b) with
        | .failed, _ => none
        | _, none => some [lit "error: screenshot command error", []]
        | _, some buf => some [lit "ok", base64Encode buf] }

def tcosRebootPoweroff (b : Build) (e : Env) (option timeout user pass : Text) : Outcome :=
  let cmd := own (lit "down-controller ") ++ req option ++ own (lit " ") ++ req timeout
  needOwnXauthOrLogin b e user pass
    (if option = lit "reboot" ∨ option = lit "poweroff" then
      answerAfter e [jobExe b cmd] (lit "ok: reboot_poweroff action done.")
    else answer (lit "error: unknow option passed."))

/-! ### pam-usb.c -/

def pamUsbReadingError : Text := lit "error: reading devices settings."

/-- `PAM_USB_WRAPPER` and the blank of the format. -/
def pamUsbWrapper (b : Build) : Text := b.tcosPath ++ lit "/tcos-pam-usb.sh  "

def initusb : Text := lit "initusb"

/-- `fopen(option, "w")`, `fwrite`, `fclose`. -/
def savePad (e : Env) (option : Text) (content : List UInt8) (reply : Option (List Text)) : Outcome :=
  if e.canWrite option then { wrote := [(option, content)], reply }
  else answer pamUsbReadingError

def tcosPamUsb (b : Build) (e : Env) (option cmdline cookie hostname : Text) : Outcome :=
  let go :=
    if option = lit "getpad" then
      match e.readfile cmdline with
      | none => answer []
      | some buf => answer (base64Encode buf)
    else if lit "/mnt/" <+: option then
      -- the length was never set
      savePad e option
        (bytes (base64Encode ((bytes cmdline ++ 0 :: e.beyond).take e.strayLength))) (some [lit "ok"])
    else if lit "//mnt/" <+: option then
      match base64Decode cmdline with
      | some out => savePad e option out (some [lit "ok"])
      -- the null pointer is written all the same, with a length that was never set
      | none => savePad e option [] (if e.strayOutput = 0 then some [lit "ok"] else none)
    else
      answerLine e bsize (lit "error: device action error.") (some pamUsbReadingError)
        (cut bsize (own (pamUsbWrapper b) ++ req option ++ own (lit " '") ++ req cmdline ++
          own (lit "'")))
  if initusb <+: option then go else needXauth e cookie hostname xauthDenied go

/-! ### The registry -/

/-- The methods `main` registers, each with the strings it reads. -/
inductive Request where
  | version
  | echo (s : Text)
  | status (app : Text)
  | login (user pass : Text)
  | logout
  | xauth (cookie hostname : Text)
  | standalone (info group : Text)
  | dbus (dbus user pass : Text)
  | pci (pci : Text)
  | exe (s user pass : Text)
  | kill (s user pass : Text)
  | xorg (option cmdline user pass : Text)
  | sound (option cmdline user pass : Text)
  | devices (option cmdline cookie hostname : Text)
  | lockscreen (user pass : Text)
  | unlockscreen (user pass : Text)
  | lockcontroller (action user pass : Text)
  | unlockcontroller (action user pass : Text)
  | info (info : Text)
  | vnc (action args user pass : Text)
  | getscreenshot (size user pass : Text)
  | vlc (volume lock user pass : Text)
  | rtp (action broadcast user pass : Text)
  | tnc (action onlyports ports username user pass : Text)
  | rebootpoweroff (option timeout user pass : Text)
  | dpms (action user pass : Text)
  | pamusb (option cmdline cookie hostname : Text)
  | config (option cmdline user pass : Text)
  deriving DecidableEq, Repr

def serve (b : Build) (e : Env) : Request → Outcome
  | .version => tcosVersion e
  | .echo s => tcosEcho s
  | .status app => tcosStatus e app
  | .login user pass => tcosLogin e user pass
  | .logout => tcosLogout
  | .xauth cookie hostname => tcosXauth e cookie hostname
  | .standalone info group => tcosStandalone b e info group
  | .dbus dbus user pass => tcosDbus b e dbus user pass
  | .pci pci => tcosPci e pci
  | .exe s user pass => tcosExe b e s user pass
  | .kill s user pass => tcosKill e s user pass
  | .xorg option cmdline user pass => tcosXorg b e option cmdline user pass
  | .sound option cmdline user pass => tcosSound b e option cmdline user pass
  | .devices option cmdline cookie hostname => tcosDevices b e option cmdline cookie hostname
  | .lockscreen user pass => tcosLockscreen b e user pass
  | .unlockscreen user pass => tcosUnlockscreen e user pass
  | .lockcontroller action user pass => tcosLockcontroller b e action user pass
  | .unlockcontroller action user pass => tcosUnlockcontroller e action user pass
  | .info info => tcosInfo b e info
  | .vnc action args user pass => tcosVnc b e action args user pass
  | .getscreenshot size user pass => tcosGetScreenshot b e size user pass
  | .vlc volume lock user pass => tcosVlc b e volume lock user pass
  | .rtp action broadcast user pass => tcosRtp b e action broadcast user pass
  | .tnc action onlyports ports username user pass =>
    tcosTnc b e action onlyports ports username user pass
  | .rebootpoweroff option timeout user pass => tcosRebootPoweroff b e option timeout user pass
  | .dpms action user pass => tcosDpms b e action user pass
  | .pamusb option cmdline cookie hostname => tcosPamUsb b e option cmdline cookie hostname
  | .config option cmdline user pass => tcosConfig b e option cmdline user pass

end Tcos.Xmlrpc
