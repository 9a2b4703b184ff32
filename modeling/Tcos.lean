import Tcos.Shell.Argument
import Tcos.Shell.Erase
import Tcos.Shell.Fields
import Tcos.Shell.Inert
import Tcos.Libc.Split
import Tcos.Passwd.Sound
import Tcos.Login.Backends
import Tcos.Xmlrpc.Address
import Tcos.Xmlrpc.Canonical
import Tcos.Xmlrpc.Internet
import Tcos.Xmlrpc.Locks
import Tcos.Xmlrpc.Injection
import Tcos.Xmlrpc.Wtmp
import Tcos.Xmlrpc.Vnc
import Tcos.Tnc.Concurrent
import Tcos.Tnc.Runs
import Tcos.Udev.Interleaved
import Tcos.Udev.Panel
import Tcos.Scripts.Configctl
import Tcos.Scripts.Devicesctl
import Tcos.Scripts.CleanInitramfs
import Tcos.Scripts.Daemonize
import Tcos.Scripts.Autologin
import Tcos.Scripts.Answers
import Tcos.Scripts.ConvertLinks
import Tcos.Scripts.Servers
import Tcos.Scripts.Mounts
import Tcos.Scripts.Udhcpc
import Tcos.Scripts.Rtp
import Tcos.Scripts.Hostname
import Tcos.Scripts.Clients
import Tcos.Scripts.Pxelinux
import Tcos.Scripts.Templates
import Tcos.Scripts.Fstab
import Tcos.Scripts.Uselocal
import Tcos.Tmixer.OssRuns
import Tcos.Tmixer.Selem
import Tcos.Tmixer.Stdin
import Tcos.Tmixer.Ids
import Tcos.Tmixer.Cset
import Tcos.Tmixer.Prange
import Tcos.Standalone.Sessions
